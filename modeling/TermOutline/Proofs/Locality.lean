import TermOutline.Proofs.Locating
import TermOutline.Proofs.Reports
import TermOutline.Proofs.Resuming

/-! # Lines are read apart from one another

What the lexical stage and grouping say about whole lines does not hang on what follows them, nor
what they say about the rest on the lines before it, but for the offsets.
-/
namespace TermOutline

theorem joinUnknown_ne_nil (token : Token) (tokens : List Token) :
    joinUnknown token tokens ≠ [] := by
  cases tokens with
  | nil => simp [joinUnknown]
  | cons next rest =>
    rw [joinUnknown]
    split <;> simp

theorem joinUnknown_append (token : Token) {tokens : List Token} (ne : tokens ≠ [])
    (more : List Token) :
    joinUnknown token (tokens ++ more) = joinUnknown token tokens ++ more := by
  cases tokens with
  | nil => exact absurd rfl ne
  | cons next rest =>
    rw [List.cons_append, joinUnknown, joinUnknown]
    split <;> rfl

theorem joinUnknown_line {token : Token} (h : token.kind = .line) (more : List Token) :
    joinUnknown token more = token :: more := by
  cases more <;> simp [joinUnknown, h]

theorem WholeLines.foldr_joinUnknown {tokens : List Token} (h : WholeLines tokens)
    (more : List Token) :
    (tokens ++ more).foldr joinUnknown [] =
      tokens.foldr joinUnknown [] ++ more.foldr joinUnknown [] := by
  induction tokens with
  | nil => rfl
  | cons token rest ih =>
    rw [List.cons_append, List.foldr_cons, ih h.tail, List.foldr_cons]
    cases rest with
    | nil => rw [List.foldr_nil, List.nil_append, joinUnknown_line (h token rfl)]; rfl
    | cons next rest => exact joinUnknown_append token (joinUnknown_ne_nil _ _) _

theorem WholeLines.splitLines_append {tokens : List Token} (h : WholeLines tokens)
    (more : List Token) : splitLines (tokens ++ more) = splitLines tokens ++ splitLines more := by
  induction tokens with
  | nil => rfl
  | cons token rest ih =>
    rw [List.cons_append, splitLines, splitLines, ih h.tail]
    split
    · rfl
    · next ne =>
      cases rest with
      | nil => exact absurd (h token rfl) ne
      | cons next rest =>
        cases hs : splitLines (next :: rest) with
        | nil =>
          have parts := splitLines_flatten (next :: rest)
          rw [hs] at parts
          cases parts
        | cons line lines => rfl

theorem foldr_joinUnknown_map {f : Token → Token} (kind : ∀ token, (f token).kind = token.kind)
    (joined : ∀ token next : Token, token.kind = .unknown → next.kind = .unknown →
      f ⟨token.kind, token.text ++ next.text, token.start⟩ =
        ⟨token.kind, (f token).text ++ (f next).text, (f token).start⟩) (tokens : List Token) :
    (tokens.map f).foldr joinUnknown [] = (tokens.foldr joinUnknown []).map f := by
  induction tokens with
  | nil => rfl
  | cons token rest ih =>
    rw [List.map_cons, List.foldr_cons, ih, List.foldr_cons]
    cases rest.foldr joinUnknown [] with
    | nil => rfl
    | cons next others =>
      rw [List.map_cons, joinUnknown, joinUnknown, kind, kind]
      split
      · next unknown => rw [List.map_cons, joined token next unknown.1 unknown.2]
      · rfl

theorem finding?_shift (token : Token) (bytes : Nat) :
    (token.shift bytes).finding? = token.finding?.map fun finding => finding.shift bytes := by
  have moved : (token.shift bytes).span = token.span.shift bytes :=
    (Relocation.shift bytes).span_token token
  rw [Token.finding?, Token.finding?, moved,
    show (token.shift bytes).fault? = token.fault? from rfl]
  cases token.fault? <;> rfl

/-- The faults of the tokens themselves. -/
def tokenFindings (tokens : List Token) : List Finding :=
  (tokens.foldr joinUnknown []).filterMap Token.finding?

/-- The texts left open, as findings. -/
def openFindings (tokens : List Token) : List Finding :=
  (unclosedTexts tokens).map fun span => ⟨.openText, span⟩

theorem lexicalFindings_eq (tokens : List Token) :
    lexicalFindings tokens = tokenFindings tokens ++ openFindings tokens := rfl

theorem tokenFindings_append {text : Source} (whole : WholeText text) (more : Source) :
    tokenFindings (text ++ more).tokens = tokenFindings text.tokens ++
      (tokenFindings more.tokens).map fun finding => finding.shift text.byteLength := by
  have lines := scans_wholeLines (scans_tokens text) whole
  have joined := @foldr_joinUnknown_map (fun token => token.shift text.byteLength) (fun _ => rfl)
    (fun _ _ _ _ => rfl) more.tokens
  rw [tokenFindings, tokens_append whole, lines.foldr_joinUnknown, joined, List.filterMap_append,
    List.filterMap_map]
  simp only [Function.comp_def, finding?_shift, tokenFindings, List.map_filterMap]

theorem openFindings_append {text : Source} (whole : WholeText text) (more : Source) :
    openFindings (text ++ more).tokens = openFindings text.tokens ++
      (openFindings more.tokens).map fun finding => finding.shift text.byteLength := by
  rw [openFindings, unclosedTexts_append whole, openFindings, openFindings]
  simp [Finding.shift]

/-- A token that stands for a run of tokens of its kind. -/
structure Joined (run : List Token) (token : Token) : Prop where
  start : ∃ first rest, run = first :: rest ∧ token.start = first.start
  text : token.text = run.flatMap Token.text
  kinds : ∀ part ∈ run, part.kind = token.kind

theorem joined_self (token : Token) : Joined [token] token :=
  ⟨⟨token, [], rfl, rfl⟩, by simp, by simp⟩

/-- Joining unknown characters cuts the tokens into runs. -/
theorem foldr_joinUnknown_runs (tokens : List Token) :
    ∃ runs : List (List Token), runs.flatten = tokens ∧
      List.Forall₂ Joined runs (tokens.foldr joinUnknown []) := by
  induction tokens with
  | nil => exact ⟨[], rfl, .nil⟩
  | cons token rest ih =>
    obtain ⟨runs, whole, joined⟩ := ih
    rw [List.foldr_cons, ← whole]
    rw [← whole] at joined
    generalize runs.flatten.foldr joinUnknown [] = tokens at joined
    cases joined with
    | nil => exact ⟨[[token]], rfl, .cons (joined_self token) .nil⟩
    | @cons run next runs others first after =>
      rw [joinUnknown]
      split
      · next unknown =>
        refine ⟨(token :: run) :: runs, by simp, .cons ⟨⟨token, run, rfl, rfl⟩, ?_, ?_⟩ after⟩
        · rw [List.flatMap_cons, ← first.text]
        · refine List.forall_mem_cons.2 ⟨rfl, ?_⟩
          intro part member
          rw [first.kinds part member, unknown.1, unknown.2]
      · exact ⟨[token] :: run :: runs, by simp, .cons (joined_self token) (.cons first after)⟩

theorem token_start_lt {text : Source} {token : Token} (h : token ∈ text.tokens) :
    token.start < text.byteLength := by
  have contiguous := scans_contiguous (scans_tokens text)
  obtain ⟨front, back, split⟩ := List.append_of_mem h
  have whole := scans_text (scans_tokens text)
  rw [split] at contiguous whole
  obtain ⟨start, nonempty, _⟩ := (contiguous_append_iff.1 contiguous).2
  have size := byteLength_pos nonempty
  rw [start, ← whole, List.flatMap_append, List.flatMap_cons, Source.byteLength_append,
    Source.byteLength_append]
  omega

theorem lexicalFindings_start_lt {text : Source} :
    ∀ finding ∈ lexicalFindings text.tokens, finding.span.start < text.byteLength := by
  refine List.forall_mem_append.2 ⟨?_, ?_⟩
  · intro finding member
    obtain ⟨joined, inside, found⟩ := List.mem_filterMap.1 member
    obtain ⟨runs, whole, each⟩ := foldr_joinUnknown_runs text.tokens
    obtain ⟨run, own, joins⟩ := forall₂_mem_right each inside
    obtain ⟨first, rest, rfl, start⟩ := joins.start
    obtain ⟨fault, _, rfl⟩ := Option.map_eq_some_iff.1 found
    have place : first ∈ text.tokens :=
      whole ▸ List.mem_flatten.2 ⟨_, own, List.mem_cons_self⟩
    have within := token_start_lt place
    rwa [← start] at within
  · intro finding member
    obtain ⟨span, inside, rfl⟩ := List.mem_map.1 member
    obtain ⟨token, place, rfl⟩ := unclosedTexts_atTokens span inside
    exact token_start_lt (List.mem_of_mem_filter place)

theorem reported_tokenize (file : String) (text : Source) :
    reported (Document.tokenize ⟨file, text⟩) =
      sortByStart ((lexicalFindings text.tokens).map fun finding => finding.diagnostic file) :=
  reported_accept _ _ _

theorem tokenize_append (file : String) {text : Source} (whole : WholeText text) (more : Source) :
    reported (Document.tokenize ⟨file, text ++ more⟩) =
      reported (Document.tokenize ⟨file, text⟩) ++
        (reported (Document.tokenize ⟨file, more⟩)).map
          fun diagnostic => diagnostic.shift text.byteLength := by
  have within := @lexicalFindings_start_lt text
  rw [lexicalFindings_eq, List.forall_mem_append] at within
  obtain ⟨known, unclosed⟩ := within
  simp only [reported_tokenize, lexicalFindings_eq]
  rw [tokenFindings_append whole, openFindings_append whole]
  -- open texts are found after everything else, so the findings of the two parts are mixed
  apply sortByStart_parts
  · simp only [List.filter_append, filter_before known, filter_before unclosed,
      filter_before_shift, List.append_nil]
  · simp only [List.filter_append, filter_after known, filter_after unclosed,
      filter_after_shift, List.nil_append, List.map_append]

theorem readLines_append (settings : Settings) {tokens more : List Token}
    (whole : WholeLines tokens) {above below : List (Line × List Finding)}
    (first : readLines settings tokens = .ok above)
    (second : readLines settings more = .ok below) :
    readLines settings (tokens ++ more) = .ok (above ++ below) := by
  rw [readLines] at first second ⊢
  rw [whole.splitLines_append, List.mapM_append]
  cases hf : (splitLines tokens).mapM (Line.ofTokens? settings) with
  | error breach =>
    rw [hf] at first
    cases first
  | ok before =>
    cases hs : (splitLines more).mapM (Line.ofTokens? settings) with
    | error breach =>
      rw [hs] at second
      cases second
    | ok after =>
      rw [hf] at first
      rw [hs] at second
      cases first
      cases second
      exact congrArg Except.ok List.filterMap_append

/-- Lines and what was found in them, in a text that has `bytes` more bytes before them. -/
def shiftPairs (bytes : Nat) : List (Line × List Finding) → List (Line × List Finding) :=
  List.map (Prod.map (Line.relocate (.shift bytes)) (List.map fun finding => finding.shift bytes))

theorem shiftPairs_lines (bytes : Nat) (pairs : List (Line × List Finding)) :
    (shiftPairs bytes pairs).map Prod.fst =
      (pairs.map Prod.fst).map (Line.relocate (.shift bytes)) := by
  simp [shiftPairs]

theorem shiftPairs_findings (bytes : Nat) (pairs : List (Line × List Finding)) :
    (shiftPairs bytes pairs).flatMap Prod.snd =
      (pairs.flatMap Prod.snd).map fun finding => finding.shift bytes := by
  simp [shiftPairs, List.flatMap_map, List.map_flatMap]

theorem readLines_shift (settings : Settings) (tokens : List Token) (bytes : Nat) :
    readLines settings (tokens.map fun token => token.shift bytes) =
      (readLines settings tokens).map (shiftPairs bytes) := by
  apply readLines_relocate (.shift bytes)
  intro line _
  exact Nat.add_sub_add_right _ _ _

theorem readLines_of_tokenize {file : String} {text : Source} {tokens : List Token}
    (h : Document.tokenize ⟨file, text⟩ = .ok tokens) (settings : Settings) :
    tokens = text.tokens ∧ ∃ pairs, readLines settings text.tokens = .ok pairs ∧
      ∀ finding ∈ pairs.flatMap Prod.snd, finding.span.start < text.byteLength := by
  obtain ⟨quiet, rfl⟩ := accept_eq_ok h
  obtain ⟨faultless, closed⟩ := (lexicalFindings_eq_nil_iff text).1 quiet
  obtain ⟨pairs, read, _⟩ := readLines_spec settings faultless closed
  refine ⟨rfl, pairs, read, ?_⟩
  intro finding member
  obtain ⟨token, place, same⟩ := readLines_atTokens read finding member
  rw [same]
  exact token_start_lt place

theorem readLines_whole (settings : Settings) {text : Source} (whole : WholeText text)
    (more : Source) {above below : List (Line × List Finding)}
    (first : readLines settings text.tokens = .ok above)
    (second : readLines settings more.tokens = .ok below) :
    readLines settings (text ++ more).tokens = .ok (above ++ shiftPairs text.byteLength below) := by
  have moved := readLines_shift settings more.tokens text.byteLength
  rw [second] at moved
  rw [tokens_append whole]
  exact readLines_append settings (scans_wholeLines (scans_tokens text) whole) first moved

theorem group_of_readLines {settings : Settings} {tokens : List Token}
    {pairs : List (Line × List Finding)} (h : readLines settings tokens = .ok pairs)
    (file : String) (text : Source) :
    reported? (Document.group ⟨file, text⟩ settings tokens) =
        some (sortByStart ((pairs.flatMap Prod.snd).map fun finding => finding.diagnostic file)) ∧
      (pairs.flatMap Prod.snd = [] →
        Document.group ⟨file, text⟩ settings tokens = .ok (pairs.map Prod.fst)) := by
  rw [Document.group, h]
  dsimp only
  refine ⟨by rw [reported?_mapError, reported_accept], ?_⟩
  intro quiet
  rw [quiet]
  rfl

theorem tokenize_append_ok {file : String} {text more : Source} (whole : WholeText text)
    {front back : List Token} (first : Document.tokenize ⟨file, text⟩ = .ok front)
    (second : Document.tokenize ⟨file, more⟩ = .ok back) :
    Document.tokenize ⟨file, text ++ more⟩ = .ok (text ++ more).tokens := by
  have quiet := tokenize_append file whole more
  rw [first, second, reported_tokenize] at quiet
  have none := sortByStart_eq_nil quiet
  rw [List.map_eq_nil_iff] at none
  rw [Document.tokenize]
  dsimp only
  rw [none, accept_nil]

/-- The lexical stage and grouping on whole lines and what follows them: everything is as it is for
the two parts alone, first the lines and then the rest, moved to where it stands. -/
structure LineLocal (file : String) (settings : Settings) (text more : Source) : Prop where
  tokens : (text ++ more).tokens =
    text.tokens ++ more.tokens.map fun token => token.shift text.byteLength
  unclosed : unclosedTexts (text ++ more).tokens = unclosedTexts text.tokens ++
    (unclosedTexts more.tokens).map fun span => span.shift text.byteLength
  tokenize : reported (Document.tokenize ⟨file, text ++ more⟩) =
    reported (Document.tokenize ⟨file, text⟩) ++ (reported (Document.tokenize ⟨file, more⟩)).map
      fun diagnostic => diagnostic.shift text.byteLength
  group : ∀ front back, Document.tokenize ⟨file, text⟩ = .ok front →
    Document.tokenize ⟨file, more⟩ = .ok back →
    ∃ both first second, Document.tokenize ⟨file, text ++ more⟩ = .ok both ∧
      reported? (Document.group ⟨file, text⟩ settings front) = some first ∧
      reported? (Document.group ⟨file, more⟩ settings back) = some second ∧
      reported? (Document.group ⟨file, text ++ more⟩ settings both) =
        some (first ++ second.map fun diagnostic => diagnostic.shift text.byteLength)
  lines : ∀ front back both, Document.tokenize ⟨file, text⟩ = .ok front →
    Document.tokenize ⟨file, more⟩ = .ok back →
    Document.tokenize ⟨file, text ++ more⟩ = .ok both →
    reported? (Document.group ⟨file, text ++ more⟩ settings both) = some [] →
    ∃ above below, Document.group ⟨file, text⟩ settings front = .ok above ∧
      Document.group ⟨file, more⟩ settings back = .ok below ∧
      Document.group ⟨file, text ++ more⟩ settings both =
        .ok (above ++ below.map (Line.relocate (.shift text.byteLength)))

/-- The lexical stage and grouping never let one line change what they say about another. -/
theorem stages_lineLocal (file : String) (settings : Settings) {text : Source}
    (whole : text = [] ∨ text.getLast? = some '\n') (more : Source) :
    LineLocal file settings text more := by
  refine ⟨tokens_append whole more, unclosedTexts_append whole more,
    tokenize_append file whole more, ?_, ?_⟩
  · intro front back first second
    obtain ⟨rfl, above, ha, inside⟩ := readLines_of_tokenize first settings
    obtain ⟨rfl, below, hb, _⟩ := readLines_of_tokenize second settings
    have read := readLines_whole settings whole more ha hb
    refine ⟨_, _, _, tokenize_append_ok whole first second, (group_of_readLines ha file text).1,
      (group_of_readLines hb file more).1, ?_⟩
    rw [(group_of_readLines read file _).1, List.flatMap_append, shiftPairs_findings]
    refine congrArg some (sortByStart_parts file _ ?_ ?_)
    · rw [List.filter_append, filter_before inside, filter_before_shift, List.append_nil]
    · rw [List.filter_append, filter_after inside, filter_after_shift, List.nil_append]
  · intro front back both first second third quiet
    obtain ⟨rfl, above, ha, _⟩ := readLines_of_tokenize first settings
    obtain ⟨rfl, below, hb, _⟩ := readLines_of_tokenize second settings
    obtain ⟨rfl, _⟩ := readLines_of_tokenize third settings
    have read := readLines_whole settings whole more ha hb
    obtain ⟨reports, returns⟩ := group_of_readLines read file (text ++ more)
    rw [reports, Option.some.injEq] at quiet
    have none := List.map_eq_nil_iff.1 (sortByStart_eq_nil quiet)
    rw [List.map_append, shiftPairs_lines] at returns
    refine ⟨_, _, (group_of_readLines ha file text).2 ?_, (group_of_readLines hb file more).2 ?_,
      returns none⟩
    all_goals rw [List.flatMap_append, shiftPairs_findings, List.append_eq_nil_iff] at none
    · exact none.1
    · exact List.map_eq_nil_iff.1 none.2

/-- Both parts of this text pass the lexical stage. -/
theorem stages_lineLocal_at :
    LineLocal "f" .default ['a', '\n'] ['b'] ∧
      (∃ front, Document.tokenize ⟨"f", ['a', '\n']⟩ = .ok front) ∧
      ∃ back, Document.tokenize ⟨"f", ['b']⟩ = .ok back :=
  ⟨stages_lineLocal "f" .default (Or.inr rfl) ['b'], ⟨_, rfl⟩, ⟨_, rfl⟩⟩

end TermOutline
