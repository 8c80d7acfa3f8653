import TermOutline.Nest.Render
import TermOutline.Proofs.MovedFindings
import TermOutline.Proofs.Placing

/-! # Line endings

A line feed and a carriage return with a line feed end lines alike. Writing every line break of a
text in the other way moves its tokens and changes nothing else: the same documents are accepted,
with the same meaning, and the others are refused with diagnostics that a reader sees at the same
places.
-/
namespace TermOutline

namespace Source

/-- The text with a carriage return before every line feed. -/
def withReturns (text : Source) : Source :=
  text.flatMap fun c => if c = '\n' then ['\r', '\n'] else [c]

@[simp] theorem withReturns_nil : withReturns [] = [] := rfl

@[simp] theorem withReturns_append (text more : Source) :
    (text ++ more).withReturns = text.withReturns ++ more.withReturns := List.flatMap_append

theorem withReturns_feed (rest : Source) :
    withReturns ('\n' :: rest) = '\r' :: '\n' :: rest.withReturns := rfl

theorem withReturns_cons {c : Char} (h : c ≠ '\n') (rest : Source) :
    withReturns (c :: rest) = c :: rest.withReturns := by
  simp [withReturns, h]

theorem withReturns_row {row : Source} (h : '\n' ∉ row) : row.withReturns = row := by
  induction row with
  | nil => rfl
  | cons c rest ih =>
    rw [List.mem_cons, not_or] at h
    rw [withReturns_cons (Ne.symm h.1), ih h.2]

theorem byteLength_withReturns (text : Source) :
    text.withReturns.byteLength = text.byteLength + text.count '\n' := by
  induction text with
  | nil => rfl
  | cons c rest ih =>
    by_cases feed : c = '\n'
    · subst feed
      rw [withReturns_feed, byteLength, byteLength, ih, byteLength, List.count_cons_self]
      have size : Char.utf8Size '\r' = 1 := rfl
      omega
    · rw [withReturns_cons feed, byteLength, ih, byteLength, List.count_cons_of_ne feed]
      omega

theorem count_withReturns (text : Source) : text.withReturns.count '\n' = text.count '\n' := by
  induction text with
  | nil => rfl
  | cons c rest ih =>
    by_cases feed : c = '\n'
    · subst feed
      rw [withReturns_feed, List.count_cons_of_ne (by decide), List.count_cons_self, ih,
        List.count_cons_self]
    · rw [withReturns_cons feed, List.count_cons_of_ne feed, ih, List.count_cons_of_ne feed]

theorem withReturns_cut {rest : Source} {count : Nat} (h : '\n' ∉ rest.take count) :
    rest.withReturns.take count = rest.take count ∧
      rest.withReturns.drop count = withReturns (rest.drop count) := by
  have parts : rest.withReturns = rest.take count ++ withReturns (rest.drop count) := by
    conv_lhs => rw [← List.take_append_drop count rest]
    rw [withReturns_append, withReturns_row h]
  by_cases short : count ≤ rest.length
  · have size : (rest.take count).length = count := List.length_take_of_le short
    rw [parts]
    exact ⟨List.take_left' size, List.drop_left' size⟩
  · have all : rest.take count = rest := List.take_of_length_le (by omega)
    rw [all] at h
    rw [withReturns_row h, List.drop_eq_nil_of_le (by omega : rest.length ≤ count)]
    exact ⟨rfl, rfl⟩

end Source

namespace Mode

theorem run_withReturns {p : Char → Bool} (feed : p '\n' = false) (back : p '\r' = false)
    (rest : Source) : run p rest.withReturns = run p rest := by
  induction rest with
  | nil => rfl
  | cons c rest ih =>
    by_cases ending : c = '\n'
    · subst ending
      simp [run, Source.withReturns_feed, feed, back]
    · rw [Source.withReturns_cons ending]
      rw [run, run] at ih
      by_cases goes : p c = true <;> simp [run, goes, ih]

theorem numberRule_withReturns (rest : Source) :
    numberRule rest.withReturns = numberRule rest := by
  have same := @run_withReturns Char.isDigit rfl rfl
  have cut := (Source.withReturns_cut (@not_mem_take_run Char.isDigit rfl rest)).2
  rw [numberRule, numberRule]
  simp only [same, cut]
  cases rest.drop (run Char.isDigit rest) with
  | nil => rfl
  | cons c fraction =>
    by_cases ending : c = '\n'
    · subst ending
      rfl
    · rw [Source.withReturns_cons ending]
      by_cases point : c = '.'
      · subst point
        simp [same]
      · simp [point]

theorem signRule_withReturns (rest : Source) : signRule rest.withReturns = signRule rest := by
  cases rest with
  | nil => rfl
  | cons c rest =>
    by_cases ending : c = '\n'
    · subst ending
      rfl
    · rw [Source.withReturns_cons ending, signRule, signRule, numberRule_withReturns]

theorem escapeRule_withReturns (rest : Source) : escapeRule rest.withReturns = escapeRule rest := by
  cases rest with
  | nil => rfl
  | cons c rest =>
    by_cases ending : c = '\n'
    · subst ending
      rfl
    · rw [Source.withReturns_cons ending, escapeRule, escapeRule]

/-- No token but a line break or a lone carriage return hangs on how lines end. -/
theorem rule_withReturns (mode : Mode) {c : Char} (h : c ≠ '\r') (rest : Source) :
    mode.rule c rest.withReturns = mode.rule c rest := by
  cases mode with
  | code =>
    simp only [rule, codeRule, numberRule_withReturns, signRule_withReturns,
      @run_withReturns continuesTerm rfl rfl, @run_withReturns (· == ' ') rfl rfl,
      @run_withReturns (· == '\t') rfl rfl, @run_withReturns Char.isAlphanum rfl rfl]
    split
    · rfl
    split
    · rfl
    split <;> first | rfl | exact absurd rfl h
  | text =>
    simp only [rule, textRule, escapeRule_withReturns, @run_withReturns continuesCut rfl rfl]
    split <;> first | rfl | exact absurd rfl h

theorem rule_lineFeed (mode : Mode) (rest : Source) : mode.rule '\n' rest = (.line, 0) := by
  cases mode <;> rfl

theorem rule_return (mode : Mode) (rest : Source) :
    mode.rule '\r' ('\n' :: rest) = (.line, 1) := by
  cases mode <;> rfl

end Mode

/-- How many line feeds end up to an offset. -/
def feedsBefore (text : Source) (offset : Nat) : Nat :=
  (LineTable.startsAfter 0 text).countP (· ≤ offset)

theorem feedsBefore_byteLength (before after : Source) :
    feedsBefore (before ++ after) before.byteLength = before.count '\n' :=
  LineTable.countP_startsAfter (Nat.le_refl _) fun _ member => (LineTable.mem_startsAfter member).1

theorem feedsBefore_mono (text : Source) : Monotone (feedsBefore text) := by
  intro low high le
  apply List.countP_mono_left
  intro start _
  simp only [decide_eq_true_eq]
  omega

theorem byteLength_returns (count : Nat) :
    Source.byteLength (List.replicate count '\r') = count := by
  induction count with
  | zero => rfl
  | succ count ih =>
    rw [List.replicate_succ, Source.byteLength, ih]
    exact Nat.add_comm 1 count

/-- A token that takes in the returns of its line feeds ends where the text after it begins. -/
theorem stop_returns (text : Source) (t : Token) :
    t.start + feedsBefore text t.start + Source.byteLength
        (List.replicate (feedsBefore text t.span.stop - feedsBefore text t.start) '\r' ++ t.text) =
      t.span.stop + feedsBefore text t.span.stop := by
  have order := @feedsBefore_mono text t.start t.span.stop (Nat.le_add_right _ _)
  have stop : t.span.stop = t.start + t.text.byteLength := rfl
  rw [Source.byteLength_append, byteLength_returns]
  omega

/-- Every line feed of the text moves what comes after it by one byte, and itself grows by one. -/
def Relocation.withReturns (text : Source) : Relocation where
  offset offset := offset + feedsBefore text offset
  token t :=
    { t with
      text :=
        List.replicate (feedsBefore text t.span.stop - feedsBefore text t.start) '\r' ++ t.text
      start := t.start + feedsBefore text t.start }
  monotone _ _ le := Nat.add_le_add le (feedsBefore_mono text le)
  kind_token _ := rfl
  start_token _ := rfl
  stop_token t := stop_returns text t

theorem withReturns_strictMono (text : Source) :
    StrictMono (Relocation.withReturns text).offset :=
  fun _ _ lt => Nat.add_lt_add_of_lt_of_le lt (feedsBefore_mono text (Nat.le_of_lt lt))

theorem withReturns_offset (before after : Source) :
    (Relocation.withReturns (before ++ after)).offset before.byteLength =
      before.withReturns.byteLength := by
  rw [Source.byteLength_withReturns, ← feedsBefore_byteLength before after]
  rfl

theorem withReturns_token {before after : Source} {token : Token}
    (start : token.start = before.byteLength) (unbroken : '\n' ∉ token.text) :
    (Relocation.withReturns (before ++ token.text ++ after)).token token =
      { token with start := before.withReturns.byteLength } := by
  have stop := feedsBefore_byteLength (before ++ token.text) after
  have place := withReturns_offset before (token.text ++ after)
  have first := feedsBefore_byteLength before (token.text ++ after)
  rw [List.count_append, List.count_eq_zero.2 unbroken, Nat.add_zero, Source.byteLength_append,
    ← start] at stop
  rw [← List.append_assoc, ← start] at first place
  have same : feedsBefore (before ++ token.text ++ after) token.span.stop -
      feedsBefore (before ++ token.text ++ after) token.start = 0 := by
    rw [show token.span.stop = token.start + token.text.byteLength from rfl, stop, first]
    exact Nat.sub_self _
  rw [← place]
  simp only [Relocation.withReturns, same, List.replicate_zero, List.nil_append]

theorem withReturns_line {before after : Source} {token : Token}
    (start : token.start = before.byteLength) (feed : token.text = ['\n']) :
    (Relocation.withReturns (before ++ ['\n'] ++ after)).token token =
      ⟨token.kind, ['\r', '\n'], before.withReturns.byteLength⟩ := by
  have stop := feedsBefore_byteLength (before ++ ['\n']) after
  have place := withReturns_offset before (['\n'] ++ after)
  have first := feedsBefore_byteLength before (['\n'] ++ after)
  rw [List.count_append, List.count_singleton_self, Source.byteLength_append, ← start, ← feed]
    at stop
  rw [← List.append_assoc, ← start] at first place
  have grows : feedsBefore (before ++ ['\n'] ++ after) token.span.stop -
      feedsBefore (before ++ ['\n'] ++ after) token.start = 1 := by
    rw [first, show token.span.stop = token.start + token.text.byteLength from rfl, ← feed, stop]
    exact Nat.add_sub_cancel_left _ 1
  rw [← place]
  simp only [Relocation.withReturns, grows, feed]
  rfl

theorem rule_feed_free {mode : Mode} {c : Char} (feed : c ≠ '\n') (back : c ≠ '\r')
    (rest : Source) : '\n' ∉ c :: rest.take (mode.rule c rest).2 := by
  intro inside
  have ends := rule_endsLine mode c rest
  have kind := ends.of_mem inside
  rw [kind] at ends
  rcases ends with same | same
  · exact feed (List.cons.inj same).1
  · exact back (List.cons.inj same).1

theorem scans_withReturns {text : Source} {scanner : Scanner} {offset : Nat} {rest : Source}
    {tokens : List Token} (h : Scans scanner offset rest tokens) {before : Source}
    (split : text = before ++ rest) (reached : offset = before.byteLength) (plain : '\r' ∉ rest) :
    Scans (scanner.resume (.withReturns text) []) before.withReturns.byteLength rest.withReturns
      (tokens.map (Relocation.withReturns text).token) := by
  induction h generalizing before with
  | nil => exact .nil _ _
  | @cons scanner offset c rest token more tokens rule spelled start tail ih =>
    have back : c ≠ '\r' := fun same => plain (by simp [same])
    have parts : text = before ++ token.text ++ rest.drop more := by
      rw [split, spelled, List.append_assoc, List.cons_append, List.take_append_drop]
    have stop : token.span.stop = (before ++ token.text).byteLength := by
      rw [Source.byteLength_append, ← reached, ← start]
      rfl
    have next := ih parts stop fun member =>
      plain (List.mem_cons_of_mem _ (List.mem_of_mem_drop member))
    rw [← step_resume, Source.withReturns_append, Source.byteLength_append] at next
    by_cases feed : c = '\n'
    · subst feed
      rw [Mode.rule_lineFeed, Prod.mk.injEq] at rule
      obtain ⟨kind, rfl⟩ := rule
      rw [List.take_zero] at spelled
      rw [spelled] at parts
      have moved := @withReturns_line before (rest.drop 0) token (start.trans reached) spelled
      rw [← parts] at moved
      rw [Source.withReturns_feed, List.map_cons]
      refine .cons (show _ = (_, 1) from ?_) ?_ ?_ ?_
      · rw [Mode.rule_return, moved, kind]
      · rw [moved]
        rfl
      · rw [moved]
      · rw [moved] at next ⊢
        rw [spelled] at next
        exact next
    · have unbroken := @rule_feed_free scanner.mode c feed back rest
      rw [rule] at unbroken
      have bare : '\n' ∉ rest.take more := fun member => unbroken (List.mem_cons_of_mem _ member)
      rw [← spelled] at unbroken
      have moved := @withReturns_token before (rest.drop more) token (start.trans reached) unbroken
      rw [← parts] at moved
      obtain ⟨taken, dropped⟩ := Source.withReturns_cut bare
      rw [Source.withReturns_cons feed, List.map_cons]
      refine .cons (show _ = (_, more) from ?_) ?_ ?_ ?_
      · rw [(Scanner.like_resume _ _ scanner).mode, Mode.rule_withReturns _ back, rule, moved]
      · rw [moved, taken]
        exact spelled
      · rw [moved]
      · rw [moved] at next ⊢
        rw [Source.withReturns_row unbroken] at next
        rw [dropped]
        exact next

theorem tokens_withReturns {text : Source} (plain : '\r' ∉ text) :
    text.withReturns.tokens = text.tokens.map (Relocation.withReturns text).token :=
  (scans_unique (@scans_withReturns text _ _ _ _ (scans_tokens text) [] rfl rfl plain)).symm

theorem withReturns_span {before inside after : Source} (unbroken : '\n' ∉ inside) :
    (Relocation.withReturns (before ++ inside ++ after)).span
        ⟨before.byteLength, (before ++ inside).byteLength⟩ =
      ⟨before.withReturns.byteLength,
        before.withReturns.byteLength + inside.byteLength⟩ := by
  have start := withReturns_offset before (inside ++ after)
  have stop := withReturns_offset (before ++ inside) after
  rw [← List.append_assoc] at start
  rw [Source.withReturns_append, Source.withReturns_row unbroken,
    Source.byteLength_append before.withReturns] at stop
  rw [Relocation.span, start, stop]

/-- Other line endings move the tokens of a text and leave its lines as they are. -/
theorem withReturns_carries {text : Source} (plain : '\r' ∉ text) :
    (Relocation.withReturns text).Carries text text.withReturns := by
  refine ⟨tokens_withReturns plain, ?_, ?_, ?_⟩
  · intro token member ending
    have scanned := scans_tokens text
    have unbroken : '\n' ∉ token.text :=
      fun feed => ending ((scans_endsLine scanned token member).of_mem feed)
    obtain ⟨front, back, split⟩ := List.append_of_mem member
    have parts := scans_text scanned
    have start := scans_contiguous scanned
    rw [split, contiguous_append_iff, Nat.zero_add] at start
    rw [split, List.flatMap_append, List.flatMap_cons, ← List.append_assoc] at parts
    rw [← parts, withReturns_token start.2.1 unbroken]
  · rintro ⟨start, stop⟩ ⟨before, inside, after, rfl, _, unbroken, rfl, rfl⟩
    rw [withReturns_span unbroken, Source.byteLength_append]
    simp [Span.length]
  · rintro ⟨start, stop⟩ ⟨before, inside, after, rfl, _, unbroken, rfl, rfl⟩
    rw [withReturns_span unbroken, sourceText, sourceText, Source.byteLength_append,
      Source.slice?_append, Source.withReturns_append, Source.withReturns_append,
      Source.withReturns_row unbroken, Source.slice?_append]

/-- Every place lies behind whole lines and a part of its own line. -/
theorem exists_above (before : Source) :
    ∃ above lead : Source, before = above ++ lead ∧ WholeText above ∧ '\n' ∉ lead := by
  induction before using List.reverseRecOn with
  | nil => exact ⟨[], [], rfl, Or.inl rfl, by simp⟩
  | append_singleton front c ih =>
    by_cases feed : c = '\n'
    · subst feed
      exact ⟨front ++ ['\n'], [], by simp, Or.inr (by simp), by simp⟩
    · obtain ⟨above, lead, rfl, whole, unbroken⟩ := ih
      refine ⟨above, lead ++ [c], by simp, whole, ?_⟩
      rw [List.mem_append, List.mem_singleton, not_or]
      exact ⟨unbroken, Ne.symm feed⟩

theorem exists_below (after : Source) :
    ∃ tail rest : Source, after = tail ++ rest ∧ '\n' ∉ tail ∧ ∀ c ∈ rest.head?, c = '\n' := by
  refine ⟨after.takeWhile (· != '\n'), after.dropWhile (· != '\n'),
    List.takeWhile_append_dropWhile.symm, ?_, ?_⟩
  · intro feed
    simpa using List.mem_takeWhile_imp feed
  · intro c first
    have stops := List.head?_dropWhile_not (· != '\n') after
    rw [first] at stops
    simpa using stops

theorem wholeText_withReturns {above : Source} (whole : WholeText above) :
    WholeText above.withReturns := by
  rcases whole with rfl | feed
  · exact Or.inl rfl
  · obtain ⟨front, rfl⟩ := List.getLast?_eq_some_iff.1 feed
    right
    simp [Source.withReturns]

/-- The row that a stretch of a text starts on, cut where the stretch starts. -/
theorem Span.Marks.row {span : Span} {text : Source} (h : span.Marks text) :
    ∃ above lead shown rest : Source, text = above ++ (lead ++ shown) ++ rest ∧ WholeText above ∧
      '\n' ∉ lead ++ shown ∧ (∀ c ∈ rest.head?, c = '\n') ∧
      span.start = (above ++ lead).byteLength := by
  obtain ⟨before, inside, after, rfl, _, unbroken, start, _⟩ := h
  obtain ⟨above, lead, rfl, whole, lead_unbroken⟩ := exists_above before
  obtain ⟨tail, rest, rfl, tail_unbroken, ending⟩ := exists_below after
  refine ⟨above, lead, inside ++ tail, rest, by simp, whole, ?_, ending, start⟩
  simp [lead_unbroken, unbroken, tail_unbroken]

/-- What a reader is shown of a diagnostic does not hang on how lines end. -/
theorem place_withReturns {text : Source} (plain : '\r' ∉ text) {diagnostic : Diagnostic}
    (marks : diagnostic.span.Marks text) :
    ((Relocation.withReturns text).diagnostic diagnostic).place text.withReturns =
      diagnostic.place text := by
  have width : ((Relocation.withReturns text).diagnostic diagnostic).span.length =
      diagnostic.span.length := (withReturns_carries plain).lengths _ marks
  obtain ⟨above, lead, shown, rest, split, whole, unbroken, ending, start⟩ := marks.row
  have row_plain : '\r' ∉ lead ++ shown := by
    intro back
    exact plain (by rw [split]; simp at back ⊢; tauto)
  have moved : ((Relocation.withReturns text).diagnostic diagnostic).span.start =
      (above.withReturns ++ lead).byteLength := by
    have place := withReturns_offset (above ++ lead) (shown ++ rest)
    rw [show above ++ lead ++ (shown ++ rest) = text by simp [split], ← start,
      Source.withReturns_append, @Source.withReturns_row lead (by simp_all)] at place
    exact place
  have ended : WholeText above.withReturns := wholeText_withReturns whole
  rw [split, place_row whole unbroken ending (Source.dropFinal_of_not_mem row_plain) start, ← split]
  -- the row gets a carriage return unless it is the last
  cases rest with
  | nil =>
    have written : text.withReturns = above.withReturns ++ (lead ++ shown) ++ [] := by
      rw [split, Source.withReturns_append, Source.withReturns_append,
        Source.withReturns_row unbroken]
      rfl
    rw [written, place_row ended unbroken ending (Source.dropFinal_of_not_mem row_plain) moved,
      Source.count_withReturns, width]
  | cons c below =>
    obtain rfl := ending c rfl
    have written : text.withReturns = above.withReturns ++ (lead ++ (shown ++ ['\r'])) ++
        '\n' :: Source.withReturns below := by
      rw [split, Source.withReturns_append, Source.withReturns_append,
        Source.withReturns_row unbroken, Source.withReturns_feed]
      simp
    have shows : Source.dropFinal '\r' (lead ++ (shown ++ ['\r'])) = lead ++ shown := by
      rw [← List.append_assoc, Source.dropFinal_concat]
    rw [written, place_row ended (by simpa using unbroken) (by simp) shows moved,
      Source.count_withReturns, width]

/-- Diagnostics that say the same and are shown at the same place. -/
structure Diagnostic.ShownAs (diagnostic other : Diagnostic) : Prop where
  category : other.category = diagnostic.category
  code : other.code = diagnostic.code
  note : other.note = diagnostic.note
  placed : ∃ placement, diagnostic.placement = some placement ∧ other.placement = some placement

/-- How the lines of a text end makes no difference: a document is accepted with carriage returns
exactly when it is accepted without, it means the same and is rendered as the same text, and a
refused document is refused with the same diagnostics at the same places. -/
theorem parse_lineEndings (file : String) (settings : Settings) {text : Source}
    (plain : '\r' ∉ text) :
    ((∃ moved, Document.parse ⟨file, text.withReturns⟩ settings = .ok moved) ↔
      ∃ tree, Document.parse ⟨file, text⟩ settings = .ok tree) ∧
    (∀ tree moved, Document.parse ⟨file, text⟩ settings = .ok tree →
      Document.parse ⟨file, text.withReturns⟩ settings = .ok moved →
        moved.outline = tree.outline ∧ ∀ format, moved.render format = tree.render format) ∧
    ∀ failure failure', Document.parse ⟨file, text⟩ settings = .error failure →
      Document.parse ⟨file, text.withReturns⟩ settings = .error failure' →
        ∃ report report' : Report, failure = .rejected report ∧ failure' = .rejected report' ∧
          List.Forall₂ Diagnostic.ShownAs (report.fill text).toList
            (report'.fill text.withReturns).toList := by
  have carries := withReturns_carries plain
  refine ⟨parse_carried_iff carries file settings, ?_, ?_⟩
  · intro tree moved parsed parsed'
    have outline := outline_carried carries parsed parsed'
    exact ⟨outline, fun format => by rw [Tree.render, outline]; rfl⟩
  · intro failure failure' refused refused'
    obtain ⟨report, report', same, same', listed, each⟩ :=
      report_carried carries (withReturns_strictMono text) refused refused'
    refine ⟨report, report', same, same', ?_⟩
    rw [show (report.fill text).toList = report.toList.map fun diagnostic => diagnostic.fill text
      from rfl, show (report'.fill text.withReturns).toList =
        report'.toList.map fun diagnostic => diagnostic.fill text.withReturns from rfl, listed]
    rw [List.map_map, List.forall₂_map_left_iff, List.forall₂_map_right_iff, List.forall₂_same]
    intro diagnostic member
    obtain ⟨unplaced, marks⟩ := each diagnostic member
    have moved : ((Relocation.withReturns text).diagnostic diagnostic).placement = none := unplaced
    rw [Function.comp_apply, Diagnostic.fill_eq unplaced, Diagnostic.fill_eq moved,
      place_withReturns plain marks]
    exact ⟨rfl, rfl, rfl, _, rfl, rfl⟩

/-- A tab on the second line of two, and a text left open on the first. -/
theorem parse_lineEndings_at : ∃ report report' : Report,
    Document.parse ⟨"", ['<', '\n', 'é', '\t']⟩ .default = .error (.rejected report) ∧
      Document.parse ⟨"", ['<', '\r', '\n', 'é', '\t']⟩ .default = .error (.rejected report') ∧
      report.toList.map Diagnostic.code = ["open_text", "unknown_text", "tab"] ∧
      List.Forall₂ Diagnostic.ShownAs (report.fill ['<', '\n', 'é', '\t']).toList
        (report'.fill ['<', '\r', '\n', 'é', '\t']).toList := by
  have refused : Document.parse ⟨"", ['<', '\n', 'é', '\t']⟩ .default =
      .error (.rejected ⟨Finding.diagnostic ⟨.openText, ⟨0, 1⟩⟩ "",
        [Finding.diagnostic ⟨.unknownText ['é'], ⟨2, 4⟩⟩ "",
          Finding.diagnostic ⟨.tab, ⟨4, 5⟩⟩ ""]⟩) := by
    decide +kernel
  have refused' : Document.parse ⟨"", ['<', '\r', '\n', 'é', '\t']⟩ .default =
      .error (.rejected ⟨Finding.diagnostic ⟨.openText, ⟨0, 1⟩⟩ "",
        [Finding.diagnostic ⟨.unknownText ['é'], ⟨3, 5⟩⟩ "",
          Finding.diagnostic ⟨.tab, ⟨5, 6⟩⟩ ""]⟩) := by
    decide +kernel
  obtain ⟨report, report', same, same', shown⟩ :=
    (@parse_lineEndings "" .default ['<', '\n', 'é', '\t'] (by decide)).2.2 _ _ refused refused'
  cases same
  cases same'
  exact ⟨_, _, refused, refused', rfl, shown⟩

end TermOutline
