import TermOutline.Proofs.Locality
import TermOutline.Proofs.MovedTrees
import TermOutline.Proofs.Padding
import TermOutline.Proofs.Respelling
import TermOutline.Proofs.RoundTrip

/-! # Documents one after the other

A line that is not indented belongs to nothing above it. So whole lines followed by a text that
starts with such a line have a tree exactly when both parts have one, and it is the tree of the one
with the tree of the other behind it.
-/
namespace TermOutline

/-- The first line that says something, if there is one, has no spaces in front. -/
def Unindented (text : Source) : Prop :=
  ∀ line ∈ (contentLines text.tokens).head?, leadingSpaces line = 0

theorem forall₂_split {α β : Type} {R : α → β → Prop} {front back : List α} {all : List β}
    (h : List.Forall₂ R (front ++ back) all) : ∃ front' back', all = front' ++ back' ∧
      List.Forall₂ R front front' ∧ List.Forall₂ R back back' := by
  induction front generalizing all with
  | nil => exact ⟨[], all, rfl, .nil, h⟩
  | cons a rest ih =>
    obtain _ | ⟨first, others⟩ := h
    obtain ⟨front', back', rfl, hf, hb⟩ := ih others
    exact ⟨_ :: front', back', rfl, .cons first hf, hb⟩

theorem rowsFit_of_append {maxDepth : Nat} {front back : List Row}
    (h : RowsFit maxDepth 0 (front ++ back)) : RowsFit maxDepth 0 front := by
  obtain ⟨first, steps, depths, values⟩ := rowsFit_zero_iff.1 h
  refine rowsFit_zero_iff.2 ⟨?_, (List.isChain_append.1 steps).1,
    (List.forall_mem_append.1 depths).1, (List.isChain_append.1 values).1⟩
  intro row member
  exact first row (List.mem_head?_append_of_mem_head? member)

theorem rowsFit_append_iff {maxDepth : Nat} {front back : List Row}
    (top : ∀ row ∈ back.head?, row.depth = 0) :
    RowsFit maxDepth 0 (front ++ back) ↔ RowsFit maxDepth 0 front ∧ RowsFit maxDepth 0 back := by
  constructor
  · intro h
    refine ⟨rowsFit_of_append h, ?_⟩
    obtain ⟨_, steps, depths, values⟩ := rowsFit_zero_iff.1 h
    exact rowsFit_zero_iff.2 ⟨top, (List.isChain_append.1 steps).2.1,
      (List.forall_mem_append.1 depths).2, (List.isChain_append.1 values).2.1⟩
  · rintro ⟨hf, hb⟩
    obtain ⟨first, steps, depths, values⟩ := rowsFit_zero_iff.1 hf
    obtain ⟨_, steps', depths', values'⟩ := rowsFit_zero_iff.1 hb
    refine rowsFit_zero_iff.2 ⟨?_, List.isChain_append.2 ⟨steps, steps', ?_⟩,
      List.forall_mem_append.2 ⟨depths, depths'⟩, List.isChain_append.2 ⟨values, values', ?_⟩⟩
    · intro row member
      cases front with
      | nil => exact top row member
      | cons head rest => exact first row member
    · intro _ _ next member
      rw [top next member]
      exact Nat.zero_le _
    · intro _ _ next member _
      rw [top next member]
      exact Nat.zero_le _

theorem ReadsBlock.append {depth : Nat} {front back : List Row} {nests others : List Nest}
    (hf : ReadsBlock depth front nests) (hb : ReadsBlock depth back others) :
    ReadsBlock depth (front ++ back) (nests ++ others) := by
  induction hf with
  | nil => exact hb
  | cons hi _ _ iho =>
    rw [List.cons_append, List.append_assoc]
    exact .cons hi (iho hb)

section Rows

variable {settings : Settings} {text : Source} (whole : WholeText text) (more : Source)

include whole

theorem lexical_append_iff :
    Faultless (text ++ more).tokens ∧ Closed .initial (text ++ more).tokens ↔
      (Faultless text.tokens ∧ Closed .initial text.tokens) ∧
        Faultless more.tokens ∧ Closed .initial more.tokens := by
  simp only [← lexicalFindings_eq_nil_iff, lexicalFindings_eq, tokenFindings_append whole,
    openFindings_append whole, List.append_eq_nil_iff, List.map_eq_nil_iff]
  tauto

theorem contentLines_append : contentLines (text ++ more).tokens = contentLines text.tokens ++
    (contentLines more.tokens).map (List.map (Relocation.shift text.byteLength).token) := by
  have lines := (scans_wholeLines (scans_tokens text) whole).splitLines_append
    (more.tokens.map (Relocation.shift text.byteLength).token)
  rw [← contentLines_relocate, contentLines, tokens_append whole]
  refine (congrArg _ lines).trans ?_
  rw [List.filter_append]
  rfl

theorem rows_append {above below : List Row}
    (first : List.Forall₂ (Row.Reads settings) (contentLines text.tokens) above)
    (second : List.Forall₂ (Row.Reads settings) (contentLines more.tokens) below) :
    List.Forall₂ (Row.Reads settings) (contentLines (text ++ more).tokens) (above ++ below) := by
  rw [contentLines_append whole]
  exact List.rel_append first (rows_alike (lines_alike_shift _ _) second)

theorem rows_of_append {rows : List Row}
    (h : List.Forall₂ (Row.Reads settings) (contentLines (text ++ more).tokens) rows) :
    ∃ above below, rows = above ++ below ∧
      List.Forall₂ (Row.Reads settings) (contentLines text.tokens) above ∧
      List.Forall₂ (Row.Reads settings) (contentLines more.tokens) below := by
  rw [contentLines_append whole] at h
  obtain ⟨above, below, rfl, first, second⟩ := forall₂_split h
  refine ⟨above, below, rfl, first, rows_alike ?_ second⟩
  rw [List.forall₂_map_left_iff, List.forall₂_same]
  intro line _
  exact lineAlike_of_relocate _ (fun _ _ _ => rfl) fun _ _ => Nat.add_right_cancel

end Rows

theorem Unindented.depth {settings : Settings} {text : Source} (h : Unindented text)
    {rows : List Row} (reads : List.Forall₂ (Row.Reads settings) (contentLines text.tokens) rows) :
    ∀ row ∈ rows.head?, row.depth = 0 := by
  rw [Unindented] at h
  generalize contentLines text.tokens = lines at h reads
  cases reads with
  | nil => simp
  | cons first _ =>
    rintro row ⟨⟩
    have level := first.depth
    rw [h _ rfl] at level
    exact (Nat.mul_eq_zero.1 level.symm).resolve_right settings.indentWidth_pos.ne'

/-- What comes after whole lines cannot make them acceptable. -/
theorem parse_of_append {file : String} {settings : Settings} {text more : Source} {both : Tree}
    (whole : WholeText text) (h : Document.parse ⟨file, text ++ more⟩ settings = .ok both) :
    ∃ first, Document.parse ⟨file, text⟩ settings = .ok first := by
  obtain ⟨rows, reads, fit, _⟩ := parse_block h
  obtain ⟨faultless, closed, _⟩ := parse_eq_ok h
  obtain ⟨above, below, rfl, first, _⟩ := rows_of_append whole more reads
  have sound := ((lexical_append_iff whole more).1 ⟨faultless, closed⟩).1
  obtain ⟨tree, parsed, _⟩ := @parse_of_rows ⟨file, text⟩ _ _ sound.1 sound.2 first
    (rowsFit_of_append fit)
  exact ⟨tree, parsed⟩

theorem parse_append_of_unindented (file : String) (settings : Settings) {text more : Source}
    (whole : WholeText text) (unindented : Unindented more) :
    (∃ both, Document.parse ⟨file, text ++ more⟩ settings = .ok both) ↔
      (∃ first, Document.parse ⟨file, text⟩ settings = .ok first) ∧
        ∃ second, Document.parse ⟨file, more⟩ settings = .ok second := by
  constructor
  · rintro ⟨both, h⟩
    refine ⟨parse_of_append whole h, ?_⟩
    obtain ⟨rows, reads, fit, _⟩ := parse_block h
    obtain ⟨faultless, closed, _⟩ := parse_eq_ok h
    obtain ⟨above, below, rfl, _, second⟩ := rows_of_append whole more reads
    have sound := ((lexical_append_iff whole more).1 ⟨faultless, closed⟩).2
    obtain ⟨tree, parsed, _⟩ := @parse_of_rows ⟨file, more⟩ _ _ sound.1 sound.2 second
      ((rowsFit_append_iff (unindented.depth second)).1 fit).2
    exact ⟨tree, parsed⟩
  · rintro ⟨⟨first, h⟩, second, h'⟩
    obtain ⟨above, reads, fit, _⟩ := parse_block h
    obtain ⟨below, reads', fit', _⟩ := parse_block h'
    obtain ⟨faultless, closed, _⟩ := parse_eq_ok h
    obtain ⟨faultless', closed', _⟩ := parse_eq_ok h'
    have sound := (lexical_append_iff whole more).2 ⟨⟨faultless, closed⟩, faultless', closed'⟩
    obtain ⟨tree, parsed, _⟩ := @parse_of_rows ⟨file, text ++ more⟩ _ _ sound.1 sound.2
      (rows_append whole more reads reads')
      ((rowsFit_append_iff (unindented.depth reads')).2 ⟨fit, fit'⟩)
    exact ⟨tree, parsed⟩

theorem linesRead_append {settings : Settings} {text more : Source} (whole : WholeText text)
    (faultless : Faultless text.tokens) (closed : Closed .initial text.tokens)
    (faultless' : Faultless more.tokens) (closed' : Closed .initial more.tokens)
    {above below : List Line} (first : LinesRead settings text.tokens above)
    (second : LinesRead settings more.tokens below) :
    LinesRead settings (text ++ more).tokens
      (above ++ below.map (Line.relocate (.shift text.byteLength))) := by
  obtain ⟨pairs, read, attempts⟩ := readLines_spec settings faultless closed
  obtain ⟨pairs', read', attempts'⟩ := readLines_spec settings faultless' closed'
  obtain ⟨sound, shut⟩ := (lexical_append_iff whole more).2
    ⟨⟨faultless, closed⟩, faultless', closed'⟩
  obtain ⟨all, readAll, attemptsAll⟩ := readLines_spec settings sound shut
  rw [attempts_eq first attempts] at read
  rw [attempts_eq second attempts'] at read'
  rw [readLines_whole settings whole more read read', Except.ok.injEq] at readAll
  subst readAll
  have quiet : ∀ pair ∈ above.map (fun line => (line, [])) ++
      shiftPairs text.byteLength (below.map fun line => (line, [])), pair.2 = [] := by
    refine List.forall_mem_append.2 ⟨by simp, ?_⟩
    simp only [shiftPairs, List.map_map, List.forall_mem_map]
    exact fun _ _ => rfl
  have lines := attempts_read attemptsAll quiet
  rw [List.map_append, shiftPairs_lines] at lines
  simpa [LinesRead, Function.comp_def] using lines

theorem clampDepths_append (maxDepth limit : Nat) (above below : List Line) :
    ∃ last, clampDepths maxDepth limit (above ++ below) =
      clampDepths maxDepth limit above ++ clampDepths maxDepth last below := by
  induction above generalizing limit with
  | nil => exact ⟨limit, rfl⟩
  | cons line rest ih =>
    obtain ⟨last, same⟩ := ih (min (min line.depth limit + 1) maxDepth)
    refine ⟨last, ?_⟩
    rw [List.cons_append, clampDepths, clampDepths, same, List.cons_append]

/-- Nests that are not deep stay apart from the line above them. -/
theorem nestLine_append (line : ClampedLine) (after rest : List (Nat × Element))
    (top : ∀ entry ∈ rest.head?, entry.1 = 0) :
    nestLine line (after ++ rest) = nestLine line after ++ rest := by
  have stop : (rest.takeWhile fun entry => decide (line.depth < entry.1)) = [] ∧
      (rest.dropWhile fun entry => decide (line.depth < entry.1)) = rest := by
    cases rest with
    | nil => exact ⟨rfl, rfl⟩
    | cons entry others =>
      have shallow := top entry rfl
      simp [shallow]
  have taken : ((after ++ rest).takeWhile fun entry => decide (line.depth < entry.1)) =
      after.takeWhile fun entry => decide (line.depth < entry.1) := by
    rw [List.takeWhile_append, stop.1]
    split
    · next all => rw [List.append_nil, (List.takeWhile_prefix _).eq_of_length all]
    · rfl
  have dropped : ((after ++ rest).dropWhile fun entry => decide (line.depth < entry.1)) =
      (after.dropWhile fun entry => decide (line.depth < entry.1)) ++ rest := by
    rw [List.dropWhile_append, stop.2]
    split
    · next none => rw [List.isEmpty_iff.1 none, List.nil_append]
    · rfl
  simp only [nestLine, taken, dropped, List.cons_append]

theorem foldr_nestLine_append (lines : List ClampedLine) (rest : List (Nat × Element))
    (top : ∀ entry ∈ rest.head?, entry.1 = 0) :
    lines.foldr nestLine rest = lines.foldr nestLine [] ++ rest := by
  induction lines with
  | nil => rfl
  | cons line others ih => rw [List.foldr_cons, ih, nestLine_append line _ _ top, List.foldr_cons]

/-- A line that is not indented starts anew: its nests and those after it do not hang on the
limit. -/
theorem foldr_nestLine_limit (maxDepth limit : Nat) {lines : List Line}
    (top : ∀ line ∈ lines.head?, line.depth = 0) :
    (clampDepths maxDepth limit lines).foldr nestLine [] =
        (clampDepths maxDepth 0 lines).foldr nestLine [] ∧
      ∀ entry ∈ ((clampDepths maxDepth 0 lines).foldr nestLine []).head?, entry.1 = 0 := by
  cases lines with
  | nil => exact ⟨rfl, nofun⟩
  | cons line rest =>
    have depth := top line rfl
    refine ⟨?_, ?_⟩
    · simp only [clampDepths, depth, Nat.zero_min, List.foldr_cons, nestLine]
    · rintro entry ⟨⟩
      exact Nat.min_zero _

theorem nestLines_append (maxDepth : Nat) (above : List Line) {below : List Line}
    (top : ∀ line ∈ below.head?, line.depth = 0) :
    nestLines (clampDepths maxDepth 0 (above ++ below)) =
      nestLines (clampDepths maxDepth 0 above) ++ nestLines (clampDepths maxDepth 0 below) := by
  obtain ⟨last, split⟩ := clampDepths_append maxDepth 0 above below
  obtain ⟨same, first⟩ := foldr_nestLine_limit maxDepth last top
  rw [nestLines, split, List.foldr_append, same, foldr_nestLine_append _ _ first, List.map_append]
  rfl

theorem padded_append {front back padded padded' : List Element}
    (hf : elementsPadded front padded) (hb : elementsPadded back padded') :
    elementsPadded (front ++ back) (padded ++ padded') := by
  induction front generalizing padded with
  | nil =>
    rw [show padded = [] from hf]
    exact hb
  | cons element rest ih =>
    obtain ⟨trivia, first, others, rfl, quiet, hp, ho⟩ := hf
    exact ⟨trivia, first, others ++ padded', by simp, quiet, hp, ih ho⟩

theorem padded_trivia {elements padded : List Element} {trivia : List Token}
    (h : elementsPadded elements padded) (ne : elements ≠ []) (quiet : content trivia = []) :
    elementsPadded elements (trivia.map Element.token ++ padded) := by
  cases elements with
  | nil => exact absurd rfl ne
  | cons element rest =>
    obtain ⟨before, first, others, rfl, quiet', hp, ho⟩ := h
    refine ⟨trivia ++ before, first, others, by simp, ?_, hp, ho⟩
    rw [content_append, quiet, quiet', List.append_nil]

/-- Trivia between the parts stands in the root, wherever it comes from. -/
theorem Tree.Holds.append {settings : Settings} {tokens more : List Token} {above below : List Line}
    {first second : Tree} (h : first.Holds settings tokens above)
    (h' : second.Holds settings more below) (top : ∀ line ∈ below.head?, line.depth = 0) :
    Tree.Holds settings (tokens ++ more) (above ++ below) ⟨first.children ++ second.children⟩ := by
  obtain ⟨padded, trail, split, hp, quiet⟩ := h.padded
  obtain ⟨padded', trail', split', hp', quiet'⟩ := h'.padded
  refine ⟨?_, ?_⟩
  · rw [nestLines_append settings.maxDepth above top]
    by_cases none : nestLines (clampDepths settings.maxDepth 0 below) = []
    · rw [none] at hp' ⊢
      obtain rfl : padded' = [] := hp'
      refine ⟨padded, trail ++ trail', ?_, by rwa [List.append_nil], ?_⟩
      · simp [split, split']
      · rw [content_append, quiet, quiet', List.append_nil]
    · refine ⟨padded ++ (trail.map Element.token ++ padded'), trail', ?_,
        padded_append hp (padded_trivia hp' none quiet), quiet'⟩
      simp [split, split']
  · rw [Tree.tokens, elementTokens_append]
    exact congrArg₂ _ h.tokens_eq h'.tokens_eq

theorem Tree.Holds.relocate {settings : Settings} {tokens : List Token} {lines : List Line}
    {tree : Tree} (h : tree.Holds settings tokens lines) (move : Relocation) :
    Tree.Holds settings (tokens.map move.token) (lines.map (Line.relocate move))
      ⟨tree.children.map (Element.relocate move)⟩ := by
  obtain ⟨padded, trail, split, hp, quiet⟩ := h.padded
  refine ⟨⟨padded.map (Element.relocate move), trail.map move.token, ?_, ?_, ?_⟩, ?_⟩
  · rw [split, List.map_append, relocate_map_token]
  · rw [clampDepths_relocate, nestLines_relocate]
    exact padded_relocate move hp
  · rw [content_relocate, quiet, List.map_nil]
  · rw [← h.tokens_eq, Tree.tokens, elementTokens_relocate]
    rfl

theorem treeFindings_head {source : Source} {maxDepth : Nat} {lines : List Line}
    (h : treeFindings source (clampDepths maxDepth 0 lines) = []) :
    ∀ line ∈ lines.head?, line.depth = 0 := by
  cases lines with
  | nil => simp
  | cons line rest =>
    rintro _ ⟨⟩
    rw [clampDepths, treeFindings, List.append_eq_nil_iff, List.append_eq_nil_iff,
      depthFindings_eq_nil] at h
    exact Nat.le_zero.1 h.1.1

/-- The tree of two parts has the elements of both, those of the second part moved. -/
theorem parse_append_children {file : String} {settings : Settings} {text more : Source}
    {first second both : Tree} (whole : WholeText text)
    (h : Document.parse ⟨file, text⟩ settings = .ok first)
    (h' : Document.parse ⟨file, more⟩ settings = .ok second)
    (hb : Document.parse ⟨file, text ++ more⟩ settings = .ok both) :
    both.children = first.children ++
      second.children.map (Element.relocate (.shift text.byteLength)) := by
  obtain ⟨faultless, closed, above, read, _, holds⟩ := parse_eq_ok h
  obtain ⟨faultless', closed', below, read', quiet', holds'⟩ := parse_eq_ok h'
  obtain ⟨sound, shut, lines, readAll, _, holdsAll⟩ := parse_eq_ok hb
  have joined := linesRead_append whole faultless closed faultless' closed' read read'
  obtain rfl := linesRead_unique sound shut readAll joined
  have top : ∀ line ∈ (below.map (Line.relocate (.shift text.byteLength))).head?,
      line.depth = 0 := by
    intro line member
    rw [List.head?_map] at member
    obtain ⟨own, place, rfl⟩ := Option.map_eq_some_iff.1 member
    exact treeFindings_head quiet' own place
  have made := holds.append (holds'.relocate (.shift text.byteLength)) top
  have tokens := tokens_append whole more
  rw [show more.tokens.map (Relocation.shift text.byteLength).token =
    more.tokens.map fun token => token.shift text.byteLength from rfl, ← tokens] at made
  exact congrArg Tree.children (holdsAll.unique readAll made)

theorem parse_append_outline {file : String} {settings : Settings} {text more : Source}
    {first second both : Tree} (whole : WholeText text)
    (h : Document.parse ⟨file, text⟩ settings = .ok first)
    (h' : Document.parse ⟨file, more⟩ settings = .ok second)
    (hb : Document.parse ⟨file, text ++ more⟩ settings = .ok both) :
    both.outline = first.outline ++ second.outline := by
  obtain ⟨above, reads, _, block⟩ := parse_block h
  obtain ⟨below, reads', _, block'⟩ := parse_block h'
  obtain ⟨rows, readsAll, _, blockAll⟩ := parse_block hb
  obtain ⟨sound, shut, _⟩ := parse_eq_ok hb
  obtain rfl := rows_unique sound shut readsAll (rows_append whole more reads reads')
  exact blockAll.unique (block.append block')

theorem nestRows_append (level : Nat) (nests others : List Nest) :
    nestRows level (nests ++ others) = nestRows level nests ++ nestRows level others := by
  induction nests with
  | nil => rfl
  | cons nest rest ih => rw [List.cons_append, nestRows, ih, nestRows, List.append_assoc]

theorem nestRows_ne_nil {nests : List Nest} (h : nests ≠ []) (level : Nat) :
    nestRows level nests ≠ [] := by
  match nests with
  | [] => exact absurd rfl h
  | .mk head children :: rest => simp [nestRows, Nest.rows]

theorem intercalate_append {front back : List Source} (hf : front ≠ []) (hb : back ≠ []) :
    ['\n'].intercalate (front ++ back) =
      ['\n'].intercalate front ++ '\n' :: ['\n'].intercalate back := by
  induction front with
  | nil => exact absurd rfl hf
  | cons text rest ih =>
    cases rest with
    | nil =>
      obtain ⟨next, others, rfl⟩ := List.exists_cons_of_ne_nil hb
      simp [List.intercalate_cons_cons]
    | cons next others =>
      rw [List.cons_append, List.cons_append, List.intercalate_cons_cons, ← List.cons_append,
        ih (by simp), List.intercalate_cons_cons]
      simp

theorem renderNests_append (format : Settings) {nests others : List Nest} (hn : nests ≠ [])
    (ho : others ≠ []) : renderNests format (nests ++ others) =
      renderNests format nests ++ '\n' :: renderNests format others := by
  rw [renderNests, nestRows_append, List.map_append]
  apply intercalate_append
  · simpa using nestRows_ne_nil hn 0
  · simpa using nestRows_ne_nil ho 0

theorem eq_nil_of_renderNests {format : Settings} {nests : List Nest}
    (writable : nestsWritable nests) (h : renderNests format nests = []) : nests = [] := by
  match nests with
  | [] => rfl
  | .mk head children :: rest =>
    obtain ⟨c, more, first, _⟩ := render_first writable.1.1
    rw [renderNests, nestRows, Nest.rows, List.cons_append, List.map_cons] at h
    generalize (nestRows 1 children ++ nestRows 0 rest).map _ = rows at h
    cases rows <;> simp [List.intercalate_cons_cons, first] at h

/-- How the tree of two parts is put together, the first part being `bytes` long. -/
structure Tree.Joins (bytes : Nat) (first second both : Tree) : Prop where
  children : both.children =
    first.children ++ second.children.map (Element.relocate (.shift bytes))
  nests : both.nests = first.nests ++ second.nests.map (Element.relocate (.shift bytes))
  outline : both.outline = first.outline ++ second.outline
  render : ∀ format, first.render format ≠ [] → second.render format ≠ [] →
    both.render format = first.render format ++ '\n' :: second.render format
  render_one : ∀ format, first.render format = [] ∨ second.render format = [] →
    both.render format = first.render format ++ second.render format

theorem parse_append_joins {file : String} {settings : Settings} {text more : Source}
    {first second both : Tree} (whole : WholeText text)
    (h : Document.parse ⟨file, text⟩ settings = .ok first)
    (h' : Document.parse ⟨file, more⟩ settings = .ok second)
    (hb : Document.parse ⟨file, text ++ more⟩ settings = .ok both) :
    Tree.Joins text.byteLength first second both := by
  have children := parse_append_children whole h h' hb
  have outline := parse_append_outline whole h h' hb
  refine ⟨children, ?_, outline, ?_, ?_⟩
  · rw [Tree.nests, children, List.filter_append, List.filter_map]
    simp [Function.comp_def, Tree.nests]
  · intro format some some'
    rw [Tree.render, outline]
    refine renderNests_append format ?_ ?_
    · intro none
      exact some (by rw [Tree.render, none]; rfl)
    · intro none
      exact some' (by rw [Tree.render, none]; rfl)
  · rintro format (none | none)
    · have nothing := eq_nil_of_renderNests (parse_writable h) none
      rw [none, Tree.render, outline, nothing]
      rfl
    · have nothing := eq_nil_of_renderNests (parse_writable h') none
      rw [none, List.append_nil, Tree.render, outline, nothing, List.append_nil]
      rfl

/-- Documents concatenate: whole lines and a text that starts unindented have a tree together
exactly when each has one, and their trees are joined in it. Whole lines have a tree whenever they
have one together with any text behind them. -/
theorem parse_concatenates (file : String) (settings : Settings) {text : Source}
    (whole : text = [] ∨ text.getLast? = some '\n') (more : Source) :
    (Unindented more →
      ((∃ both, Document.parse ⟨file, text ++ more⟩ settings = .ok both) ↔
        (∃ first, Document.parse ⟨file, text⟩ settings = .ok first) ∧
          ∃ second, Document.parse ⟨file, more⟩ settings = .ok second)) ∧
    (∀ first second both, Document.parse ⟨file, text⟩ settings = .ok first →
      Document.parse ⟨file, more⟩ settings = .ok second →
      Document.parse ⟨file, text ++ more⟩ settings = .ok both →
        Tree.Joins text.byteLength first second both) ∧
    ((∃ both, Document.parse ⟨file, text ++ more⟩ settings = .ok both) →
      ∃ first, Document.parse ⟨file, text⟩ settings = .ok first) := by
  refine ⟨parse_append_of_unindented file settings whole, ?_, ?_⟩
  · intro first second both h h' hb
    exact parse_append_joins whole h h' hb
  · rintro ⟨both, hb⟩
    exact parse_of_append whole hb

/-- A blank line between the parts stays outside their nests. -/
theorem parse_concatenates_at : ∃ both,
    Document.parse ⟨"", ['1', '\n', ' ', '\n'] ++ ['\n', 'a']⟩ .default = .ok both ∧
      both.children = [.node .nest [.token ⟨.size, ['1'], 0⟩], .token ⟨.line, ['\n'], 1⟩,
        .token ⟨.space, [' '], 2⟩, .token ⟨.line, ['\n'], 3⟩, .token ⟨.line, ['\n'], 4⟩,
        .node .nest [.token ⟨.term, ['a'], 5⟩]] ∧
      both.render .default = ['1', '\n', 'a'] := by
  have first : Document.parse ⟨"", ['1', '\n', ' ', '\n']⟩ .default =
      .ok ⟨[.node .nest [.token ⟨.size, ['1'], 0⟩], .token ⟨.line, ['\n'], 1⟩,
        .token ⟨.space, [' '], 2⟩, .token ⟨.line, ['\n'], 3⟩]⟩ := by
    decide +kernel
  have second : Document.parse ⟨"", ['\n', 'a']⟩ .default =
      .ok ⟨[.token ⟨.line, ['\n'], 0⟩, .node .nest [.token ⟨.term, ['a'], 1⟩]]⟩ := by
    decide +kernel
  have start : (contentLines (Source.tokens ['\n', 'a'])).head? = some [⟨.term, ['a'], 1⟩] := by
    decide +kernel
  have unindented : Unindented ['\n', 'a'] := by
    intro line member
    rw [start] at member
    cases member
    rfl
  have all := parse_concatenates "" .default (Or.inr rfl : ['1', '\n', ' ', '\n'] = [] ∨ _)
    ['\n', 'a']
  obtain ⟨both, parsed⟩ := (all.1 unindented).2 ⟨⟨_, first⟩, _, second⟩
  have joins := all.2.1 _ _ _ first second parsed
  exact ⟨both, parsed, joins.children, joins.render .default (by decide) (by decide)⟩

end TermOutline
