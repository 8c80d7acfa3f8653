import TermOutline.Proofs.Rendering

/-! # Round trips

What a document with a tree stands for can be written. So its block form is read again as the same
nests and rendered as the same text, unless it has levels that are too deep for the settings it is
rendered with, and then these are all that is reported.
-/
namespace TermOutline

def Token.IsPlainCut (token : Token) : Prop := token.kind = .textCut ∧ IsPlain token.text

theorem drop_run (p : Char → Bool) (rest : Source) :
    rest.drop (Mode.run p rest) = rest.dropWhile p := by
  conv_lhs => rw [Mode.run]; arg 2; rw [← List.takeWhile_append_dropWhile (p := p) (l := rest)]
  exact List.drop_left' rfl

/-- A cut of plain characters is as long as it can be, and a text goes on behind it. -/
theorem scans_cuts {scanner : Scanner} {offset : Nat} {text : Source} {tokens : List Token}
    (h : Scans scanner offset text tokens) :
    tokens.IsChain fun token next =>
      token.IsPlainCut → next.kind ≠ .space ∧ ¬next.IsPlainCut := by
  induction h with
  | nil => exact .nil
  | @cons scanner offset c rest token more tokens rule spelled _ tail ih =>
    refine List.isChain_cons.2 ⟨?_, ih⟩
    rintro next member ⟨kind, plain⟩
    have mode : scanner.mode = .text := by
      have admitted := rule_admitted scanner.mode c rest
      rw [rule, kind] at admitted
      cases hm : scanner.mode with
      | text => rfl
      | code =>
        rw [hm] at admitted
        cases admitted
    have first : Mode.continuesCut c = true := plain.2 c (by rw [spelled]; exact List.mem_cons_self)
    rw [mode, Mode.rule, textRule_plain first, Prod.mk.injEq] at rule
    have same : scanner.step token = scanner := by
      rw [Scanner.step, kind]
    rw [same, ← rule.2, drop_run] at tail
    generalize hr : rest.dropWhile Mode.continuesCut = remaining at tail
    cases tail with
    | nil => cases member
    | @cons _ _ d others _ _ _ rule' spelled' _ _ =>
      cases member
      have stops : Mode.continuesCut d = false := by
        have begins := List.head?_dropWhile_not Mode.continuesCut rest
        rw [hr] at begins
        simpa using begins
      have admitted := rule_admitted scanner.mode d others
      rw [rule', mode] at admitted
      refine ⟨?_, ?_⟩
      · intro space
        rw [space] at admitted
        cases admitted
      · rintro ⟨_, plain'⟩
        have goes := plain'.2 d (by rw [spelled']; exact List.mem_cons_self)
        rw [stops] at goes
        cases goes

/-- Leaving out trivia brings no two plain cuts together. -/
theorem content_cuts {line : List Token}
    (cuts : line.IsChain fun token next =>
      token.IsPlainCut → next.kind ≠ .space ∧ ¬next.IsPlainCut)
    (last : line.IsChain fun token _ => token.kind ≠ .line) :
    (content line).IsChain fun token next => token.IsPlainCut → ¬next.IsPlainCut := by
  induction line with
  | nil => exact .nil
  | cons token rest ih =>
    rw [List.isChain_cons] at cuts last
    have tail := ih cuts.2 last.2
    cases trivia : token.isTrivia with
    | true =>
      rw [content_trivia trivia]
      exact tail
    | false =>
      rw [content_significant trivia, List.isChain_cons]
      refine ⟨?_, tail⟩
      intro next member plain
      cases rest with
      | nil => cases member
      | cons follower others =>
        obtain ⟨space, bare⟩ := cuts.1 follower rfl plain
        cases hf : follower.isTrivia with
        | false =>
          rw [content_significant hf] at member
          cases member
          exact bare
        | true =>
          -- Only a line break is left, and nothing comes behind it on its line.
          have line : follower.kind = .line := by
            cases hk : follower.kind <;> rw [Token.isTrivia, hk] at hf <;> cases hf
            exact absurd hk space
          cases others with
          | nil =>
            rw [content_trivia hf] at member
            cases member
          | cons other more => exact absurd line ((List.isChain_cons.1 last.2).1 other rfl)

/-- Tokens as they are spelled in a text without lexical faults. -/
structure WellSpelled (tokens : List Token) : Prop where
  words : ∀ token ∈ tokens, ∀ kind, WordKind.ofToken? token.kind = some kind →
    kind.Spells token.text
  cuts : ∀ token ∈ tokens, token.kind = .textCut → IsPlain token.text ∨ IsEscape token.text
  runs : tokens.IsChain fun token next => token.IsPlainCut → ¬next.IsPlainCut

theorem WellSpelled.part {tokens part : List Token} (h : WellSpelled tokens)
    (sub : part <:+: tokens) : WellSpelled part :=
  ⟨fun token member => h.words token (sub.subset member),
    fun token member => h.cuts token (sub.subset member), isChain_part h.runs sub⟩

theorem wellSpelled_content {text : Source} (faultless : Faultless text.tokens)
    {line : List Token} (h : line ∈ contentLines text.tokens) : WellSpelled (content line) := by
  have scans := scans_tokens text
  have found := List.mem_of_mem_filter h
  have part := splitLines_part found
  have inside : ∀ token ∈ content line, token ∈ text.tokens := by
    intro token member
    exact part.subset (List.mem_of_mem_filter member)
  refine ⟨?_, ?_, content_cuts (isChain_part (scans_cuts scans) part) (splitLines_last found)⟩
  · intro token member kind hk
    have spelled := scans_spelled scans token (inside token member)
    have codes := faultless.codes token (inside token member)
    have decimals := faultless.decimals token (inside token member)
    cases ht : token.kind <;> rw [ht] at hk spelled <;> cases hk
    · exact spelled
    · exact spelled
    · exact decimals ht
    · exact codes ht
  · intro token member hk
    have spelled := scans_spelled scans token (inside token member)
    rw [hk] at spelled
    exact spelled

mutual

theorem ReadsItem.writable : ∀ {tokens : List Token} {head : Head} {nests : List Nest},
    ReadsItem tokens head nests → WellSpelled tokens →
      head.Writable ∧ (head.isValue = true → nests = []) ∧ nestsWritable nests
  | _, _, _, .word hk, spelled =>
    ⟨spelled.words _ List.mem_cons_self _ hk, fun _ => rfl, trivial⟩
  | _, _, _, @ReadsItem.call head opening closing body nests hh _ _ _ hb, spelled => by
    have inner : WellSpelled body := spelled.part ⟨[head, opening], [closing], by simp⟩
    refine ⟨spelled.words head List.mem_cons_self .term ?_, nofun, (hb.writable inner).2⟩
    rw [hh]
    rfl
  | _, _, _, @ReadsItem.text opening closing body parts _ _ hb, spelled => by
    have inner : WellSpelled body := spelled.part ⟨[opening], [closing], by simp⟩
    exact ⟨hb.writable inner, fun _ => rfl, trivial⟩

theorem ReadsParts.writable : ∀ {tokens : List Token} {parts : List Part},
    ReadsParts tokens parts → WellSpelled tokens → partsWritable parts
  | _, _, .nil, _ => trivial
  | _, _, @ReadsParts.cut token rest parts hk hr, spelled => by
    have others : WellSpelled rest := spelled.part ⟨[token], [], by simp⟩
    refine ⟨spelled.cuts token List.mem_cons_self hk, ?_, hr.writable others⟩
    intro plain next member plain'
    cases hr with
    | nil => cases member
    | cut hk' _ =>
      cases member
      exact (List.isChain_cons.1 spelled.runs).1 _ rfl ⟨hk, plain⟩ ⟨hk', plain'⟩
    | slot =>
      cases member
      exact plain'
  | _, _, @ReadsParts.slot opening closing body rest nests parts _ _ hb hr, spelled => by
    have inner : WellSpelled body := spelled.part ⟨[opening], closing :: rest, by simp⟩
    have others : WellSpelled rest :=
      spelled.part ⟨opening :: (body ++ [closing]), [], by simp⟩
    exact ⟨hb.writable inner, fun plain => absurd plain (by simp [Part.IsPlain]),
      hr.writable others⟩

theorem ReadsChain.writable : ∀ {tokens : List Token} {nest : Nest},
    ReadsChain tokens nest → WellSpelled tokens → nest.Writable
  | _, _, .last hi, spelled => hi.writable spelled
  | _, _, @ReadsChain.more front back head nests nest hi term hc, spelled => by
    obtain ⟨own, _, args⟩ := hi.writable (spelled.part ⟨[], back, by simp⟩)
    have later := hc.writable (spelled.part ⟨front, [], by simp⟩)
    refine ⟨own, ?_, (nestsWritable_append _ _).2 ⟨args, later, trivial⟩⟩
    intro value
    rw [term] at value
    cases value

theorem ReadsList.writable : ∀ {tokens : List Token} {nests : List Nest},
    ReadsList tokens nests → WellSpelled tokens → nests ≠ [] ∧ nestsWritable nests
  | _, _, .one hc, spelled => ⟨by simp, hc.writable spelled, trivial⟩
  | _, _, @ReadsList.more front back comma nest nests hc _ hl, spelled => by
    have first := hc.writable (spelled.part ⟨[], comma :: back, by simp⟩)
    have others := hl.writable (spelled.part ⟨front ++ [comma], [], by simp⟩)
    exact ⟨by simp, first, others.2⟩

end

theorem ReadsLine.writable {tokens : List Token} {head : Head} {nests : List Nest}
    (h : ReadsLine tokens head nests) (spelled : WellSpelled tokens) :
    head.Writable ∧ (head.isValue = true → nests = []) ∧ nestsWritable nests := by
  cases h with
  | bare hi => exact hi.writable spelled
  | @more front back _ _ _ hi term hl =>
    obtain ⟨own, _, args⟩ := hi.writable (spelled.part ⟨[], back, by simp⟩)
    have later := hl.writable (spelled.part ⟨front, [], by simp⟩)
    refine ⟨own, ?_, (nestsWritable_append _ _).2 ⟨args, later.2⟩⟩
    intro value
    rw [term] at value
    cases value

/-- A block can be written when its rows can, and no value has deeper rows after it. -/
theorem ReadsBlock.writable {depth : Nat} {rows : List Row} {nests : List Nest}
    (h : ReadsBlock depth rows nests)
    (own : ∀ row ∈ rows, row.head.Writable ∧ (row.head.isValue = true → row.nests = []) ∧
      nestsWritable row.nests)
    (values : rows.IsChain fun row next => row.head.isValue = true → next.depth ≤ row.depth) :
    nestsWritable nests := by
  induction h with
  | nil => trivial
  | @cons depth head args children nests inner outer hi ho ihi iho =>
    obtain ⟨⟨first, alone, written⟩, others⟩ := List.forall_mem_cons.1 own
    rw [List.isChain_cons, List.isChain_append] at values
    have below := ihi (fun row member => others row (List.mem_append_left _ member)) values.2.1
    have after := iho (fun row member => others row (List.mem_append_right _ member)) values.2.2.1
    refine ⟨⟨first, ?_, (nestsWritable_append _ _).2 ⟨written, below⟩⟩, after⟩
    intro value
    have none : children = [] := by
      cases hi with
      | nil => rfl
      | cons =>
        have shallow := values.1 _ rfl value
        dsimp only at shallow
        omega
    rw [show args = [] from alone value, none]
    rfl

theorem parse_writable {document : Document} {settings : Settings} {tree : Tree}
    (h : document.parse settings = .ok tree) : nestsWritable tree.outline := by
  obtain ⟨lines, rows, reads, said, fit, holds⟩ := parse_rows h
  have faultless := (parse_eq_ok h).1
  refine (holds.formed said fit).1.writable ?_ fit.values
  have each : ∀ {lines : List (List Token)} {rows : List Row},
      List.Forall₂ (Row.Reads settings) lines rows →
      (∀ line ∈ lines, WellSpelled (content line)) →
      ∀ row ∈ rows, row.head.Writable ∧ (row.head.isValue = true → row.nests = []) ∧
        nestsWritable row.nests := by
    intro lines rows reads
    induction reads with
    | nil => simp
    | cons read _ ih =>
      intro spelled
      obtain ⟨first, others⟩ := List.forall_mem_cons.1 spelled
      exact List.forall_mem_cons.2 ⟨read.derives.writable first, ih others⟩
  exact each reads fun line member => wellSpelled_content faultless member

/-- The block form of a tree can be read again, with the same settings, exactly when no nest outside
slots is deeper than they allow. Then the tree stands for the same nests and is rendered as the same
text; otherwise the report is of the rows that are too deep, in order, and of nothing else. -/
theorem render_round_trip {document : Document} {settings : Settings} {tree : Tree}
    (h : document.parse settings = .ok tree) (file : String) (format : Settings) :
    ((∃ again, Document.parse ⟨file, tree.render format⟩ format = .ok again) ↔
      ∀ depth nest, NestAt tree.outline depth nest → depth ≤ format.maxDepth) ∧
    (∀ again : Tree, Document.parse ⟨file, tree.render format⟩ format = .ok again →
      again.outline = tree.outline ∧ again.render format = tree.render format) ∧
    ∀ failure, Document.parse ⟨file, tree.render format⟩ format = .error failure →
      ∃ report : Report, failure = .rejected report ∧ report.toList =
        (deepRows format 0 (nestRows 0 tree.outline)).map fun finding =>
          finding.diagnostic file := by
  have writable := parse_writable h
  rw [← headRows_depth_iff, Tree.render]
  rcases parse_renderNests writable file format with
    ⟨shallow, again, outline, parsed⟩ | ⟨deep, report, found, parsed⟩
  · rw [parsed]
    refine ⟨⟨fun _ => shallow, fun _ => ⟨again, rfl⟩⟩, ?_, nofun⟩
    rintro other ⟨⟩
    exact ⟨outline, by rw [Tree.render, outline]⟩
  · rw [parsed]
    refine ⟨⟨nofun, fun shallow => absurd shallow deep⟩, nofun, ?_⟩
    rintro failure ⟨⟩
    exact ⟨report, rfl, found⟩

/-- A call becomes a line one level deeper, where there is such a level. -/
theorem render_round_trip_at :
    (∃ again, Document.parse ⟨"", ['a', '\n', ' ', 'b']⟩ ⟨1, 1, by decide⟩ = .ok again) ∧
      ¬∃ again, Document.parse ⟨"", ['a', '\n', ' ', 'b']⟩ ⟨1, 0, by decide⟩ = .ok again := by
  have parsed : Document.parse ⟨"", ['a', '(', 'b', ')']⟩ ⟨2, 8, by decide⟩ =
      .ok ⟨[.node .nest [.token ⟨.term, ['a'], 0⟩, .token ⟨.parenOpen, ['('], 1⟩,
        .node .nest [.token ⟨.term, ['b'], 2⟩], .token ⟨.parenClose, [')'], 3⟩]]⟩ := by
    decide +kernel
  constructor
  · refine (render_round_trip parsed "" ⟨1, 1, by decide⟩).1.2 ?_
    rintro depth nest (top | ⟨parent, top | ⟨below, none⟩⟩)
    · decide
    · decide
    · cases List.mem_singleton.1 parent
      cases List.mem_singleton.1 below
      cases none with
      | top h => cases h
      | child h => cases h
  · intro again
    have shallow := (render_round_trip parsed "" ⟨1, 0, by decide⟩).1.1 again 1
      ⟨.word .term ['b'], []⟩ (.child List.mem_cons_self (.top List.mem_cons_self))
    cases shallow

end TermOutline
