import Mathlib.Data.List.DropRight
import TermOutline.Proofs.Joining

/-! # Spaces that say nothing

Spaces count at the start of a line, between a term and the parenthesis of its call, and inside a
text. Anywhere else, and on lines of their own, they can be added without a change to what a
document says.
-/
namespace TermOutline

/-- What stands on the line that the tokens end in. -/
def lastLine (tokens : List Token) : List Token :=
  tokens.rtakeWhile fun token => token.kind != .line

/-- A text with more spaces, or with one more blank line. The spaces come after a token, in code,
where the line has said something, and not between a term and a parenthesis directly behind it. The
line comes first or after a line break. -/
inductive Respaced (text : Source) : Source → Prop where
  | spaces {front back : List Token} (split : text.tokens = front ++ back)
      (code : (front.foldl Scanner.step .initial).mode = .code)
      (said : ∃ token ∈ lastLine front, token.isTrivia = false)
      (apart : ∀ last ∈ front.getLast?, ∀ next ∈ back.head?,
        ¬(last.kind = .term ∧ next.kind = .parenOpen))
      (count : Nat) :
      Respaced text (front.flatMap Token.text ++ blanks count ++ back.flatMap Token.text)
  | line {front back : List Token} (split : text.tokens = front ++ back)
      (whole : ∀ last ∈ front.getLast?, last.kind = .line) (count : Nat) :
      Respaced text
        (front.flatMap Token.text ++ (blanks count ++ ['\n']) ++ back.flatMap Token.text)

section Spaces

variable {spaces : List Token} (h : ∀ token ∈ spaces, token.kind = .space)

include h

theorem spaces_trivia : ∀ token ∈ spaces, token.isTrivia = true ∧ token.kind ≠ .line := by
  intro token member
  simp [Token.isTrivia, TokenKind.isTrivia, h token member]

theorem foldl_step_spaces (scanner : Scanner) : spaces.foldl Scanner.step scanner = scanner :=
  foldl_step_trivia (spaces_trivia h)

theorem content_spaces : content spaces = [] :=
  content_eq_nil fun token member => (spaces_trivia h token member).1

end Spaces

theorem rule_space {mode : Mode} {c : Char} {rest : Source} {more : Nat}
    (h : mode.rule c rest = (.space, more)) : ∀ d ∈ c :: rest.take more, d = ' ' := by
  have admitted := rule_admitted mode c rest
  rw [h] at admitted
  cases mode with
  | text => cases admitted
  | code =>
    obtain rfl : c = ' ' := codeRule_space (congrArg Prod.fst h)
    obtain rfl : Mode.run (· == ' ') rest = more := congrArg Prod.snd h
    refine List.forall_mem_cons.2 ⟨rfl, ?_⟩
    intro d member
    simpa using mem_take_run member

theorem scans_spaces {scanner : Scanner} {offset : Nat} {text : Source} {tokens : List Token}
    (h : Scans scanner offset text tokens) :
    ∀ token ∈ tokens, token.kind = .space → ∀ c ∈ token.text, c = ' ' := by
  induction h with
  | nil => simp
  | cons rule spelled _ _ ih =>
    refine List.forall_mem_cons.2 ⟨?_, ih⟩
    intro space
    rw [space] at rule
    rw [spelled]
    exact rule_space rule

theorem spaces_text {text : Source} {spaces : List Token}
    (h : ∀ token ∈ spaces, token.kind = .space) (own : spaces ⊆ text.tokens) :
    ∃ width, spaces.flatMap Token.text = blanks width := by
  refine ⟨_, List.eq_replicate_length.2 ?_⟩
  intro c member
  obtain ⟨token, inside, char⟩ := List.mem_flatMap.1 member
  exact scans_spaces (scans_tokens text) token (own inside) (h token inside) c char

theorem scans_blanks {scanner : Scanner} (code : scanner.mode = .code) {offset : Nat} (count : Nat)
    {text : Source} {tokens : List Token} (first : ∀ c ∈ text.head?, c ≠ ' ')
    (h : Scans scanner (offset + (count + 1)) text tokens) :
    Scans scanner offset (blanks (count + 1) ++ text)
      (⟨.space, blanks (count + 1), offset⟩ :: tokens) := by
  have rule : scanner.mode.rule ' ' (blanks count ++ text) = (.space, (blanks count).length) := by
    rw [code]
    exact codeRule_blanks count first
  change Scans scanner offset (' ' :: (blanks count ++ text)) _
  refine .cons rule ?_ rfl ?_
  · rw [List.take_left]
    rfl
  · rw [List.drop_left, Token.span, byteLength_blanks]
    exact h

/-- A space in code begins a token of spaces. -/
theorem scans_first {scanner : Scanner} (code : scanner.mode = .code) {offset : Nat} {text : Source}
    {tokens : List Token} (h : Scans scanner offset text tokens)
    (first : ∀ token ∈ tokens.head?, token.kind ≠ .space) : ∀ c ∈ text.head?, c ≠ ' ' := by
  cases h with
  | nil => simp
  | cons rule =>
    rintro _ ⟨⟩ rfl
    rw [code] at rule
    exact first _ rfl (congrArg Prod.fst rule).symm

theorem Closed.drop {scanner : Scanner} {front back : List Token}
    (h : Closed scanner (front ++ back)) : Closed (front.foldl Scanner.step scanner) back := by
  induction front generalizing scanner with
  | nil => exact h
  | cons token rest ih => exact ih h.2

theorem Closed.swap {scanner : Scanner} {front back others : List Token}
    (h : Closed scanner (front ++ back))
    (next : Closed (front.foldl Scanner.step scanner) others) :
    Closed scanner (front ++ others) := by
  induction front generalizing scanner with
  | nil => exact next
  | cons token rest ih => exact ⟨h.1, ih h.2 next⟩

/-- Neither trivia nor another place makes a fault. -/
theorem Faultless.of_same {tokens others : List Token} (h : Faultless tokens)
    (same : ∀ token ∈ others, token.isTrivia = true ∨
      ∃ own ∈ tokens, own.kind = token.kind ∧ own.text = token.text) : Faultless others := by
  refine ⟨?_, ?_, ?_⟩ <;> intro token member
  · rcases same token member with trivia | ⟨own, inside, kind, _⟩
    · rw [Token.isTrivia] at trivia
      cases hk : token.kind <;> first | rfl | (rw [hk] at trivia; cases trivia)
    · rw [← kind]
      exact h.kinds own inside
  · intro code
    rcases same token member with trivia | ⟨own, inside, kind, text⟩
    · simp [Token.isTrivia, TokenKind.isTrivia, code] at trivia
    · rw [← text]
      exact h.codes own inside (kind.trans code)
  · intro decimal
    rcases same token member with trivia | ⟨own, inside, kind, text⟩
    · simp [Token.isTrivia, TokenKind.isTrivia, decimal] at trivia
    · rw [← text]
      exact h.decimals own inside (kind.trans decimal)

theorem contentLines_alike {tokens others : List Token}
    (h : List.Forall₂ LineAlike (splitLines tokens) (splitLines others)) :
    List.Forall₂ LineAlike (contentLines tokens) (contentLines others) := by
  rw [contentLines, contentLines]
  generalize splitLines tokens = lines, splitLines others = lines' at h
  induction h with
  | nil => exact .nil
  | @cons line other _ _ same _ ih =>
    have empty : (content other).isEmpty = (content line).isEmpty := by
      obtain ⟨_, said⟩ := same
      generalize content line = tokens, content other = others at said
      cases said <;> rfl
    rw [List.filter_cons, List.filter_cons, empty]
    split
    · exact .cons same ih
    · exact ih

/-- The lines of moved tokens are alike when the first of them, up to wherever it ends, is alike
together with what stands before the tokens. -/
theorem splitLines_alike (bytes : Nat) {line line' back : List Token} (ne : line ≠ [])
    (ne' : line' ≠ []) (kinds : ∀ token ∈ line, token.kind ≠ .line)
    (kinds' : ∀ token ∈ line', token.kind ≠ .line)
    (same : ∀ ending rest, back = ending ++ rest →
      LineAlike (line ++ ending) (line' ++ ending.map (Relocation.shift bytes).token)) :
    List.Forall₂ LineAlike (splitLines (line ++ back))
      (splitLines (line' ++ back.map (Relocation.shift bytes).token)) := by
  induction back generalizing line line' with
  | nil =>
    have whole := same [] [] rfl
    rw [List.map_nil, List.append_nil, List.append_nil] at whole ⊢
    rw [splitLines_body kinds ne, splitLines_body kinds' ne']
    exact .cons whole .nil
  | cons token rest ih =>
    rw [List.map_cons]
    by_cases ending : token.kind = .line
    · -- the first line ends here, and the lines after it only move
      rw [splitLines_append kinds ending,
        splitLines_append kinds' (show ((Relocation.shift bytes).token token).kind = _ from ending),
        splitLines_relocate]
      exact .cons (same [token] rest rfl) (lines_alike_shift bytes _)
    · rw [List.append_cons, List.append_cons line']
      refine ih (by simp) (by simp) ?_ ?_ ?_
      · exact List.forall_mem_append.2 ⟨kinds, List.forall_mem_singleton.2 ending⟩
      · exact List.forall_mem_append.2 ⟨kinds', List.forall_mem_singleton.2 ending⟩
      · rintro more rest rfl
        rw [← List.append_cons, ← List.append_cons]
        exact same (token :: more) rest rfl

theorem contiguous_between {offset : Nat} {before between after : List Token} {last first : Token}
    (h : Contiguous offset (before ++ last :: (between ++ first :: after)))
    (adjacent : first.start = last.span.stop) : between = [] := by
  by_contra ne
  have later := contiguous_start_lt (contiguous_append_iff.1 h).2.2.2 ne
  omega

/-- The last token of a line that says something and the first that does behind a gap can only touch
when there is nothing in the gap. -/
theorem touching {offset : Nat} {front gap ending rest : List Token}
    (contiguous : Contiguous offset (front ++ (gap ++ (ending ++ rest)))) {last first : Token}
    (final : last ∈ (content front).getLast?) (next : first ∈ (content ending).head?)
    (adjacent : first.start = last.span.stop) :
    gap = [] ∧ last ∈ front.getLast? ∧ first ∈ ending.head? := by
  obtain ⟨others, split⟩ := List.getLast?_eq_some_iff.1 final
  obtain ⟨before, tail, rfl, _, ht⟩ := content_append_split split
  obtain ⟨lead, trail, rfl, _, _⟩ := content_cons ht
  obtain ⟨more, head⟩ := List.head?_eq_some_iff.1 next
  obtain ⟨quiet, after, rfl, _, _⟩ := content_cons head
  have regrouped : before ++ (lead ++ last :: trail) ++ (gap ++ (quiet ++ first :: after ++ rest)) =
      (before ++ lead) ++ last :: (trail ++ gap ++ quiet ++ first :: (after ++ rest)) := by
    simp
  rw [regrouped] at contiguous
  have none := contiguous_between contiguous adjacent
  simp only [List.append_eq_nil_iff] at none
  obtain ⟨⟨rfl, rfl⟩, rfl⟩ := none
  exact ⟨rfl, by simp, rfl⟩

/-- A line with a wider gap is alike, if it has begun before the gap and this does not separate a
term from its parenthesis. -/
theorem lineAlike_widened {offset : Nat} {line gap ending rest : List Token} {space : Token}
    (started : line ≠ []) (spaces : ∀ token ∈ gap, token.kind = .space) (kind : space.kind = .space)
    (contiguous : Contiguous offset (line ++ (gap ++ (ending ++ rest))))
    (apart : gap = [] → ∀ last ∈ line.getLast?, ∀ next ∈ ending.head?,
      ¬(last.kind = .term ∧ next.kind = .parenOpen)) (bytes : Nat) :
    LineAlike (line ++ gap ++ ending)
      (line ++ [space] ++ ending.map (Relocation.shift bytes).token) := by
  refine ⟨?_, ?_⟩
  · obtain ⟨first, others, rfl⟩ := List.exists_cons_of_ne_nil started
    rfl
  · have quiet : content [space] = [] := content_spaces (by simpa using kind)
    rw [content_append, content_append, content_append, content_append, content_spaces spaces,
      quiet, List.append_nil, content_relocate]
    refine (alike_refl _).append (alike_relocate _ fun _ _ => rfl) ?_
    intro last final next first term paren adjacent
    obtain ⟨none, final, first⟩ := touching contiguous final first adjacent
    exact apart none last final next first ⟨term, paren⟩

theorem getLast?_rdropWhile {p : Token → Bool} {tokens : List Token} {last : Token}
    (h : last ∈ (tokens.rdropWhile p).getLast?) : p last = false := by
  obtain ⟨ne, rfl⟩ := List.mem_getLast?_eq_getLast h
  simpa using List.rdropWhile_last_not p tokens ne

theorem lastLine_split (front : List Token) :
    ∃ whole, front = whole ++ lastLine front ∧ WholeLines whole := by
  refine ⟨_, List.rdropWhile_append_rtakeWhile.symm, ?_⟩
  intro last final
  simpa using getLast?_rdropWhile final

/-- A place of a text where spaces say nothing, between other tokens, and the spaces it has. -/
structure Gap (text : Source) (front gap back : List Token) : Prop where
  split : text.tokens = front ++ (gap ++ back)
  spaces : ∀ token ∈ gap, token.kind = .space
  last : ∀ last ∈ front.getLast?, last.kind ≠ .space
  first : ∀ next ∈ back.head?, next.kind ≠ .space
  code : (front.foldl Scanner.step .initial).mode = .code
  said : ∃ token ∈ lastLine front, token.isTrivia = false
  apart : gap = [] → ∀ last ∈ front.getLast?, ∀ next ∈ back.head?,
    ¬(last.kind = .term ∧ next.kind = .parenOpen)

theorem lastLine_append {spaces : List Token} (h : ∀ token ∈ spaces, token.kind = .space)
    (front : List Token) : lastLine (front ++ spaces) = lastLine front ++ spaces := by
  have inside : ∀ token ∈ spaces.reverse, (token.kind != .line) = true := by
    intro token member
    simp [h token (List.mem_reverse.1 member)]
  rw [lastLine, List.rtakeWhile, List.reverse_append, List.takeWhile_append_of_pos inside,
    List.reverse_append, List.reverse_reverse]
  rfl

theorem trailing_spaces (front : List Token) : ∃ core spaces, front = core ++ spaces ∧
    (∀ token ∈ spaces, token.kind = .space) ∧ ∀ last ∈ core.getLast?, last.kind ≠ .space := by
  refine ⟨_, _, (@List.rdropWhile_append_rtakeWhile _ (fun token => token.kind == .space) _).symm,
    ?_, ?_⟩
  · intro token member
    simpa using List.mem_rtakeWhile_imp member
  · intro last final
    simpa using getLast?_rdropWhile final

theorem leading_spaces (back : List Token) : ∃ spaces core, back = spaces ++ core ∧
    (∀ token ∈ spaces, token.kind = .space) ∧ ∀ first ∈ core.head?, first.kind ≠ .space := by
  refine ⟨_, _, (@List.takeWhile_append_dropWhile _ (fun token => token.kind == .space) _).symm,
    ?_, ?_⟩
  · intro token member
    simpa using List.mem_takeWhile_imp member
  · intro first member
    have stops := List.head?_dropWhile_not (fun token : Token => token.kind == .space) back
    rw [member] at stops
    simpa using stops

theorem exists_gap {text : Source} {front back : List Token} (split : text.tokens = front ++ back)
    (code : (front.foldl Scanner.step .initial).mode = .code)
    (said : ∃ token ∈ lastLine front, token.isTrivia = false)
    (apart : ∀ last ∈ front.getLast?, ∀ next ∈ back.head?,
      ¬(last.kind = .term ∧ next.kind = .parenOpen)) :
    ∃ core before behind rest, front = core ++ before ∧ back = behind ++ rest ∧
      Gap text core (before ++ behind) rest := by
  obtain ⟨core, before, rfl, spaces, last⟩ := trailing_spaces front
  obtain ⟨behind, rest, rfl, spaces', first⟩ := leading_spaces back
  rw [List.foldl_append, foldl_step_spaces spaces] at code
  rw [lastLine_append spaces] at said
  refine ⟨core, before, behind, rest, rfl, rfl, ?_, List.forall_mem_append.2 ⟨spaces, spaces'⟩,
    last, first, code, ?_, ?_⟩
  · simp [split]
  · obtain ⟨token, member, significant⟩ := said
    refine ⟨token, (List.mem_append.1 member).resolve_right ?_, significant⟩
    intro space
    rw [(spaces_trivia spaces token space).1] at significant
    cases significant
  · intro none
    obtain ⟨rfl, rfl⟩ := List.append_eq_nil_iff.1 none
    rwa [List.append_nil] at apart

section Widened

variable {text : Source} {front gap back : List Token} (h : Gap text front gap back)

include h

/-- Where code goes on, a space ends the token before it, if that is not itself of spaces. -/
theorem Gap.last_ends (faultless : Faultless text.tokens) :
    ∀ last ∈ front.getLast?, last.kind ∉ [.space, .textCut, .unknown] := by
  intro last final
  have code := h.code
  have split := h.split
  have other := h.last last final
  obtain ⟨before, rfl⟩ := List.getLast?_eq_some_iff.1 final
  have kinds := faultless.kinds last (by simp [split])
  have admitted := scans_admitted (scans_tokens text)
  rw [split, List.append_assoc, admitted_append] at admitted
  have mode := admitted.2.1
  rw [List.foldl_append, List.foldl_cons, List.foldl_nil] at code
  simp only [List.mem_cons, List.not_mem_nil, or_false, not_or]
  refine ⟨other, ?_, ?_⟩
  · intro cut
    -- a cut leaves its text open, and no code follows it there
    simp only [Scanner.step, cut] at code
    rw [code, cut] at mode
    cases mode
  · intro unknown
    rw [unknown] at kinds
    cases kinds

/-- More spaces in a gap change the token there and move what is behind it. -/
theorem Gap.tokens_widened (faultless : Faultless text.tokens) (count : Nat) :
    Source.tokens (front.flatMap Token.text ++
        (gap.flatMap Token.text ++ blanks (count + 1) ++ back.flatMap Token.text)) =
      front ++ ⟨.space, gap.flatMap Token.text ++ blanks (count + 1),
          Source.byteLength (front.flatMap Token.text)⟩ ::
        back.map fun token => token.shift (count + 1) := by
  have scanned := scans_tokens text
  rw [h.split] at scanned
  have own : gap ⊆ text.tokens := by simp [h.split]
  obtain ⟨width, wide⟩ := spaces_text h.spaces own
  have joined : gap.flatMap Token.text ++ blanks (count + 1) = blanks (width + count + 1) := by
    rw [wide, blanks, blanks, blanks, List.replicate_append_replicate, Nat.add_assoc]
  -- spaces open and close nothing, so what is behind the gap is cut as before
  have behind := scans_drop (scans_drop scanned)
  rw [foldl_step_spaces h.spaces, wide, byteLength_blanks] at behind
  have moved := scans_like behind rfl (count + 1)
  rw [Nat.add_assoc, ← Nat.add_assoc width] at moved
  have widened := scans_swap scanned ?_
    (scans_blanks h.code (width + count) (scans_first h.code behind h.first) moved)
  · rw [joined, Source.tokens, ← scans_unique widened, Nat.zero_add]
  · intro token final
    exact Or.inr (Or.inr ⟨rfl, h.last_ends faultless token final⟩)

theorem Gap.contentLines_widened {space : Token} (kind : space.kind = .space) (bytes : Nat) :
    List.Forall₂ LineAlike (contentLines text.tokens)
      (contentLines (front ++ space :: back.map (Relocation.shift bytes).token)) := by
  have contiguous := scans_contiguous (scans_tokens text)
  obtain ⟨split, spaces, _, _, _, said, apart⟩ := h
  rw [split] at contiguous ⊢
  obtain ⟨whole, parts, lines⟩ := lastLine_split front
  have kinds : ∀ token ∈ lastLine front, token.kind ≠ .line := by
    intro token member
    simpa using List.mem_rtakeWhile_imp member
  generalize lastLine front = line at *
  subst parts
  have started : line ≠ [] := by
    obtain ⟨token, member, _⟩ := said
    exact List.ne_nil_of_mem member
  rw [List.append_assoc, contiguous_append_iff] at contiguous
  apply contentLines_alike
  rw [List.append_assoc, List.append_assoc, lines.splitLines_append, lines.splitLines_append,
    ← List.append_assoc, List.append_cons]
  refine List.rel_append ?_ (splitLines_alike bytes (by simp [started]) (by simp) ?_ ?_ ?_)
  · rw [List.forall₂_same]
    exact fun _ _ => ⟨rfl, alike_refl _⟩
  · exact List.forall_mem_append.2
      ⟨kinds, fun token member => (spaces_trivia spaces token member).2⟩
  · refine List.forall_mem_append.2 ⟨kinds, ?_⟩
    simp [kind]
  · rintro ending rest rfl
    refine lineAlike_widened started spaces kind contiguous.2 ?_ bytes
    intro none last final next first
    exact apart none last (List.mem_getLast?_append_of_mem_getLast? final) next
      (List.mem_head?_append_of_mem_head? first)

theorem Gap.parse_widened {file : String} {settings : Settings} {tree : Tree}
    (parsed : Document.parse ⟨file, text⟩ settings = .ok tree) (count : Nat) :
    ∃ moved, Document.parse ⟨file, front.flatMap Token.text ++
        (gap.flatMap Token.text ++ blanks (count + 1) ++ back.flatMap Token.text)⟩ settings =
      .ok moved ∧ moved.outline = tree.outline := by
  obtain ⟨faultless, closed, _⟩ := parse_eq_ok parsed
  have tokens := h.tokens_widened faultless count
  refine @parse_alike ⟨file, text⟩ ⟨file, _⟩ _ _ parsed ?_ ?_ ?_
  · rw [tokens]
    refine faultless.of_same ?_
    simp only [List.forall_mem_append, List.forall_mem_cons, List.forall_mem_map, h.split]
    refine ⟨?_, Or.inl rfl, ?_⟩
    · intro token member
      exact Or.inr ⟨token, by simp [member], rfl, rfl⟩
    · intro token member
      exact Or.inr ⟨token, by simp [member], rfl, rfl⟩
  · rw [h.split] at closed
    rw [tokens]
    have rest := closed.drop.drop
    rw [foldl_step_spaces h.spaces] at rest
    refine closed.swap ⟨?_, closed_like rest rfl (.shift (count + 1))⟩
    intro line
    cases line
  · rw [tokens]
    exact h.contentLines_widened rfl (count + 1)

end Widened

theorem parse_spaced {file : String} {settings : Settings} {text : Source} {tree : Tree}
    (h : Document.parse ⟨file, text⟩ settings = .ok tree) {front back : List Token}
    (split : text.tokens = front ++ back)
    (code : (front.foldl Scanner.step .initial).mode = .code)
    (said : ∃ token ∈ lastLine front, token.isTrivia = false)
    (apart : ∀ last ∈ front.getLast?, ∀ next ∈ back.head?,
      ¬(last.kind = .term ∧ next.kind = .parenOpen)) (count : Nat) :
    ∃ moved, Document.parse ⟨file,
        front.flatMap Token.text ++ blanks count ++ back.flatMap Token.text⟩ settings =
      .ok moved ∧ moved.outline = tree.outline := by
  cases count with
  | zero =>
    have whole := scans_text (scans_tokens text)
    rw [split, List.flatMap_append] at whole
    rw [show blanks 0 = [] from rfl, List.append_nil, whole]
    exact ⟨tree, h, rfl⟩
  | succ count =>
    obtain ⟨core, before, behind, rest, rfl, rfl, gap⟩ := exists_gap split code said apart
    have own : behind ⊆ text.tokens := by
      intro token member
      simp [split, member]
    obtain ⟨width, wide⟩ :=
      spaces_text (fun token member => gap.spaces token (List.mem_append_right before member)) own
    have swapped : blanks (count + 1) ++ blanks width = blanks width ++ blanks (count + 1) := by
      simp only [blanks, List.replicate_append_replicate, Nat.add_comm]
    have widened := gap.parse_widened h count
    rw [List.flatMap_append, wide, List.append_assoc (before.flatMap _), ← swapped] at widened
    simpa [wide] using widened

theorem wholeText_of_lines {text : Source} {front back : List Token}
    (split : text.tokens = front ++ back) (whole : WholeLines front) :
    WholeText (front.flatMap Token.text) := by
  rcases List.eq_nil_or_concat front with rfl | ⟨before, last, rfl⟩
  · exact Or.inl rfl
  · rw [List.concat_eq_append] at *
    have ends := scans_endsLine (scans_tokens text) last (by simp [split])
    rw [whole last (by simp)] at ends
    right
    rw [List.flatMap_append, List.flatMap_singleton]
    rcases ends with feed | feed <;> simp [feed]

theorem blankLine_tokens (count : Nat) : ∃ spaces : List Token,
    Source.tokens (blanks count ++ ['\n']) = spaces ++ [⟨.line, ['\n'], count⟩] ∧
      ∀ token ∈ spaces, token.kind = .space := by
  have ending : ∀ offset, Scans .initial offset ['\n'] [⟨.line, ['\n'], offset⟩] :=
    fun offset => scans_tokensFrom .initial offset ['\n']
  cases count with
  | zero => exact ⟨[], rfl, by simp⟩
  | succ count =>
    refine ⟨[⟨.space, blanks (count + 1), 0⟩], ?_, by simp⟩
    have line := ending (0 + (count + 1))
    rw [Source.tokens, ← scans_unique (scans_blanks rfl count (by simp) line), Nat.zero_add]
    rfl

theorem blankLine_quiet (count : Nat) :
    (Faultless (Source.tokens (blanks count ++ ['\n'])) ∧
      Closed .initial (Source.tokens (blanks count ++ ['\n']))) ∧
    contentLines (Source.tokens (blanks count ++ ['\n'])) = [] := by
  obtain ⟨spaces, tokens, kinds⟩ := blankLine_tokens count
  have unbroken : ∀ token ∈ spaces, token.kind ≠ .line :=
    fun token member => (spaces_trivia kinds token member).2
  have trivia : ∀ token ∈ spaces ++ [⟨.line, ['\n'], count⟩], token.isTrivia = true := by
    refine List.forall_mem_append.2 ⟨?_, List.forall_mem_singleton.2 (isTrivia_of_line rfl)⟩
    exact fun token member => (spaces_trivia kinds token member).1
  rw [tokens]
  refine ⟨⟨?_, ?_⟩, ?_⟩
  · have nothing : Faultless [] := ⟨by simp, by simp, by simp⟩
    exact nothing.of_same fun token member => Or.inl (trivia token member)
  · rw [closed_append unbroken, foldl_step_spaces kinds]
    exact ⟨fun _ => rfl, rfl⟩
  · rw [contentLines, splitLines_append unbroken rfl, List.filter_cons, content_eq_nil trivia]
    rfl

theorem parse_blankLine {file : String} {settings : Settings} {text more : Source} {tree : Tree}
    (h : Document.parse ⟨file, text ++ more⟩ settings = .ok tree) (whole : WholeText text)
    (count : Nat) :
    ∃ moved, Document.parse ⟨file, text ++ ((blanks count ++ ['\n']) ++ more)⟩ settings =
      .ok moved ∧ moved.outline = tree.outline := by
  obtain ⟨rows, reads, fit, block⟩ := parse_block h
  obtain ⟨faultless, closed, _⟩ := parse_eq_ok h
  obtain ⟨above, below, rfl, first, second⟩ := rows_of_append whole more reads
  obtain ⟨sound, sound'⟩ := (lexical_append_iff whole more).1 ⟨faultless, closed⟩
  obtain ⟨quiet, none⟩ := blankLine_quiet count
  have blank : WholeText (blanks count ++ ['\n']) := Or.inr (by simp)
  have nothing : List.Forall₂ (Row.Reads settings)
      (contentLines (Source.tokens (blanks count ++ ['\n']))) [] := by
    rw [none]
    exact .nil
  have parts := (lexical_append_iff blank more).2 ⟨quiet, sound'⟩
  have both := (lexical_append_iff whole _).2 ⟨sound, parts⟩
  have lines := rows_append whole _ first (rows_append blank more nothing second)
  obtain ⟨moved, parsed, same⟩ := @parse_of_rows ⟨file, _⟩ _ _ both.1 both.2 lines fit
  exact ⟨moved, parsed, same.unique block⟩

/-- Spaces that say nothing can be added: the text still has a tree, which means the same and is
written the same. -/
theorem parse_respaced {file : String} {settings : Settings} {text other : Source} {tree : Tree}
    (h : Document.parse ⟨file, text⟩ settings = .ok tree) (respaced : Respaced text other) :
    ∃ moved, Document.parse ⟨file, other⟩ settings = .ok moved ∧ moved.outline = tree.outline ∧
      ∀ format, moved.render format = tree.render format := by
  have outline : ∃ moved, Document.parse ⟨file, other⟩ settings = .ok moved ∧
      moved.outline = tree.outline := by
    cases respaced with
    | spaces split code said apart count => exact parse_spaced h split code said apart count
    | line split whole count =>
      have parts := scans_text (scans_tokens text)
      rw [split, List.flatMap_append] at parts
      rw [← parts] at h
      rw [List.append_assoc]
      exact parse_blankLine h (wholeText_of_lines split whole) count
  obtain ⟨moved, parsed, same⟩ := outline
  refine ⟨moved, parsed, same, ?_⟩
  intro format
  rw [Tree.render, same, Tree.render]

/-- Spaces at the end of a slot, in a text, in a call; and a blank line before an indented one. -/
theorem parse_respaced_at :
    (∃ moved,
      Document.parse ⟨"", ['f', '(', '<', '\x7b', 'a', ' ', ' ', '\x7d', '>', ')']⟩ .default =
        .ok moved ∧
      moved.render .default = ['f', '\n', ' ', ' ', '<', '\x7b', 'a', '\x7d', '>']) ∧
    ∃ moved, Document.parse ⟨"", ['a', '\n', ' ', '\n', ' ', ' ', 'b']⟩ .default = .ok moved ∧
      moved.render .default = ['a', '\n', ' ', ' ', 'b'] := by
  have slot : ∃ tree, Document.parse ⟨"", ['f', '(', '<', '\x7b', 'a', '\x7d', '>', ')']⟩ .default =
      .ok tree ∧ tree.render .default = ['f', '\n', ' ', ' ', '<', '\x7b', 'a', '\x7d', '>'] := by
    refine ⟨⟨[.node .nest [.token ⟨.term, ['f'], 0⟩, .token ⟨.parenOpen, ['('], 1⟩,
      .node .nest [.node .text [.token ⟨.textOpen, ['<'], 2⟩, .node .slot [
        .token ⟨.slotOpen, ['\x7b'], 3⟩, .node .nest [.token ⟨.term, ['a'], 4⟩],
        .token ⟨.slotClose, ['\x7d'], 5⟩], .token ⟨.textClose, ['>'], 6⟩]],
      .token ⟨.parenClose, [')'], 7⟩]]⟩, by decide +kernel, by decide +kernel⟩
  have line : ∃ tree, Document.parse ⟨"", ['a', '\n', ' ', ' ', 'b']⟩ .default =
      .ok tree ∧ tree.render .default = ['a', '\n', ' ', ' ', 'b'] := by
    refine ⟨⟨[.node .nest [.token ⟨.term, ['a'], 0⟩, .token ⟨.line, ['\n'], 1⟩,
      .token ⟨.space, [' ', ' '], 2⟩, .node .nest [.token ⟨.term, ['b'], 4⟩]]]⟩,
      by decide +kernel, by decide +kernel⟩
  have spaced : Respaced ['f', '(', '<', '\x7b', 'a', '\x7d', '>', ')']
      ['f', '(', '<', '\x7b', 'a', ' ', ' ', '\x7d', '>', ')'] :=
    .spaces (List.take_append_drop 5 _).symm (by decide +kernel)
      ⟨⟨.term, ['a'], 4⟩, by decide +kernel, rfl⟩ (by decide +kernel) 2
  have lined : Respaced ['a', '\n', ' ', ' ', 'b'] ['a', '\n', ' ', '\n', ' ', ' ', 'b'] :=
    .line (List.take_append_drop 2 _).symm (by decide +kernel) 1
  obtain ⟨tree, parsed, written⟩ := slot
  obtain ⟨tree', parsed', written'⟩ := line
  obtain ⟨moved, again, _, same⟩ := parse_respaced parsed spaced
  obtain ⟨moved', again', _, same'⟩ := parse_respaced parsed' lined
  exact ⟨⟨moved, again, (same _).trans written⟩, moved', again', (same' _).trans written'⟩

end TermOutline
