import TermOutline.Proofs.Acceptance
import TermOutline.Proofs.Losslessness

/-! # What grouping hands on

Grouping takes any tokens, also such as no text has. Where it succeeds, the items of its lines are
made of all the tokens that are not trivia, in order and each once, and there is one line for each
chunk of tokens that says something, with the span and the depth that the chunk shows.
-/
namespace TermOutline

/-- Tokens cut into chunks, each up to and including a line break. What follows the last break is a
chunk of its own, unless it is nothing. -/
inductive Chunks : List Token → List (List Token) → Prop where
  | nil : Chunks [] []
  | last {body : List Token} (unbroken : ∀ token ∈ body, token.kind ≠ .line) (ne : body ≠ []) :
      Chunks body [body]
  | line {body rest : List Token} {ending : Token} {chunks : List (List Token)}
      (unbroken : ∀ token ∈ body, token.kind ≠ .line) (breaks : ending.kind = .line)
      (others : Chunks rest chunks) :
      Chunks (body ++ ending :: rest) ((body ++ [ending]) :: chunks)

theorem chunks_splitLines (tokens : List Token) : Chunks tokens (splitLines tokens) := by
  induction tokens using line_induction with
  | last body unbroken =>
    by_cases none : body = []
    · rw [none]
      exact .nil
    · rw [splitLines_body unbroken none]
      exact .last unbroken none
  | line body ending rest unbroken breaks others =>
    rw [splitLines_append unbroken breaks]
    exact .line unbroken breaks others

/-- A line as a chunk of tokens shows it. -/
structure Line.Shows (settings : Settings) (chunk : List Token) (line : Line) : Prop where
  tokens : itemTokens line.items = content chunk
  span : ∃ first last, (content chunk).head? = some first ∧
    (content chunk).getLast? = some last ∧ line.span = first.span.cover last.span
  depth : line.depth * settings.indentWidth = leadingSpaces chunk

theorem trimTrivia_first {tokens rest : List Token} {first : Token}
    (h : trimTrivia tokens = first :: rest) : first.isTrivia = false := by
  have stop := List.head?_dropWhile_not Token.isTrivia tokens
  have back : trimTrivia tokens <+: tokens.dropWhile Token.isTrivia := by
    rw [trimTrivia, ← List.reverse_suffix, List.reverse_reverse]
    exact List.dropWhile_suffix _
  rw [h] at back
  obtain ⟨trail, whole⟩ := back
  rw [← whole] at stop
  exact stop

theorem trimTrivia_last {tokens front : List Token} {last : Token}
    (h : trimTrivia tokens = front ++ [last]) : last.isTrivia = false := by
  have stop := List.head?_dropWhile_not Token.isTrivia (tokens.dropWhile Token.isTrivia).reverse
  have back := congrArg List.reverse h
  rw [trimTrivia, List.reverse_reverse, List.reverse_concat] at back
  rw [back] at stop
  exact stop

theorem trimTrivia_ends {tokens rest : List Token} {first : Token}
    (h : trimTrivia tokens = first :: rest) : ∃ last, (content tokens).head? = some first ∧
      (content tokens).getLast? = some last ∧
      tokenSpan first rest = first.span.cover last.span := by
  have ends := List.dropLast_append_getLast (List.cons_ne_nil first rest)
  refine ⟨(first :: rest).getLast (List.cons_ne_nil first rest), ?_, ?_, rfl⟩
  · rw [← content_trimTrivia, h, content_significant (trimTrivia_first h)]
    rfl
  · rw [← ends] at h
    have last := trimTrivia_last h
    rw [← content_trimTrivia, h, content_append, content_significant last]
    exact List.getLast?_concat

theorem ofTokens?_shows {settings : Settings} {chunk : List Token}
    {result : Option (Line × List Finding)} (h : Line.ofTokens? settings chunk = .ok result)
    (quiet : ∀ pair ∈ result, pair.2 = []) :
    (content chunk = [] ∧ result = none) ∨
      ∃ line, content chunk ≠ [] ∧ result = some (line, []) ∧ line.Shows settings chunk := by
  obtain ⟨blank, rfl⟩ | ⟨first, rest, grouping, trimmed, hg, rfl⟩ := Line.ofTokens?_cases h
  · left
    rw [← content_trimTrivia, blank]
    exact ⟨rfl, rfl⟩
  · right
    have none := quiet _ rfl
    dsimp only at none
    rw [none]
    simp only [List.append_eq_nil_iff] at none
    obtain ⟨⟨indents, clean⟩, _⟩ := none
    obtain ⟨last, head, final, span⟩ := trimTrivia_ends trimmed
    have kept := Grouping.ofTokens_keeps hg (by simp [clean])
    rw [← trimmed, content_trimTrivia] at kept
    refine ⟨_, ?_, rfl, kept, ⟨first, last, head, final, span⟩, ?_⟩
    · rintro said
      rw [said] at head
      cases head
    · -- no indentation is odd, so the width divides the leading spaces
      rw [← indentSpan_length]
      exact (indentFindings_eq_nil.1 indents).symm

theorem lines_show {settings : Settings} {chunks : List (List Token)}
    {results : List (Option (Line × List Finding))}
    (h : List.Forall₂ (fun chunk result => Line.ofTokens? settings chunk = .ok result)
      chunks results)
    (quiet : ∀ pair ∈ results.filterMap id, pair.2 = []) :
    List.Forall₂ (Line.Shows settings) (chunks.filter fun chunk => !(content chunk).isEmpty)
      ((results.filterMap id).map Prod.fst) := by
  induction h with
  | nil => exact .nil
  | @cons chunk result chunks results read _ ih =>
    have first : ∀ pair ∈ result, pair.2 = [] := by
      intro pair made
      exact quiet pair (List.mem_filterMap.2 ⟨result, List.mem_cons_self, made⟩)
    have others := ih fun pair member => quiet pair (by
      obtain ⟨other, among, made⟩ := List.mem_filterMap.1 member
      exact List.mem_filterMap.2 ⟨other, List.mem_cons_of_mem _ among, made⟩)
    obtain ⟨blank, rfl⟩ | ⟨line, said, rfl, shows⟩ := ofTokens?_shows read first
    · simpa [blank] using others
    · rw [List.filter_cons_of_pos (by simpa using said)]
      exact .cons shows others

theorem group_shows {document : Document} {settings : Settings} {tokens : List Token}
    {lines : List Line} (h : document.group settings tokens = .ok lines) :
    List.Forall₂ (Line.Shows settings) (contentLines tokens) lines := by
  rw [Document.group] at h
  split at h
  · cases h
  · next pairs read =>
    obtain ⟨results, each, rfl⟩ := readLines_cases read
    cases accepted : document.accept ((results.filterMap id).flatMap Prod.snd)
        ((results.filterMap id).map Prod.fst) with
    | error report =>
      rw [accepted] at h
      cases h
    | ok last =>
      obtain ⟨none, rfl⟩ := accept_eq_ok accepted
      rw [accepted] at h
      cases h
      exact lines_show each (List.flatMap_eq_nil_iff.1 none)

/-- Grouping that succeeds hands on every token, whatever tokens it was given: all of them as they
were, and those that say something once more in the items of the lines, in order. There is a line
for each chunk that says something, with its depth and its span. -/
theorem arrange_keeps {document : Document} {settings : Settings} {tokens kept : List Token}
    {lines : List Line} (h : document.arrange settings tokens = .ok (kept, lines)) :
    kept = tokens ∧ lineTokens lines = content tokens ∧
      ∃ chunks, Chunks tokens chunks ∧
        List.Forall₂ (Line.Shows settings) (chunks.filter fun chunk => !(content chunk).isEmpty)
          lines := by
  rw [Document.arrange] at h
  cases grouped : document.group settings tokens with
  | error failure =>
    rw [grouped] at h
    cases h
  | ok others =>
    rw [grouped] at h
    cases h
    have shows := group_shows grouped
    refine ⟨rfl, ?_, splitLines tokens, chunks_splitLines tokens, shows⟩
    exact (content_eq_of_lines (shows.imp fun _ _ shown => shown.tokens)).symm

/-- The tokens of a call, of a line of one space and of a text one level deeper, with the only item
of the call dropped. -/
theorem arrange_keeps_dropped :
    ∃ tokens : List Token, tokens = [⟨.term, ['f'], 0⟩, ⟨.parenOpen, ['('], 1⟩,
        ⟨.parenClose, [')'], 3⟩, ⟨.line, ['\n'], 4⟩, ⟨.space, [' '], 5⟩, ⟨.line, ['\n'], 6⟩,
        ⟨.space, [' ', ' '], 7⟩, ⟨.textOpen, ['<'], 9⟩, ⟨.slotOpen, ['{'], 10⟩, ⟨.term, ['a'], 11⟩,
        ⟨.slotClose, ['}'], 12⟩, ⟨.textClose, ['>'], 13⟩, ⟨.space, [' '], 14⟩] ∧
      ∃ kept lines, Document.arrange ⟨"notes", []⟩ .default tokens = .ok (kept, lines) ∧
        lines.map Line.depth = [0, 1] ∧
        kept = tokens ∧ lineTokens lines = content tokens ∧
        ∃ chunks, Chunks tokens chunks ∧ List.Forall₂ (Line.Shows .default)
          (chunks.filter fun chunk => !(content chunk).isEmpty) lines := by
  refine ⟨_, rfl, _, _, rfl, rfl, ?_⟩
  exact arrange_keeps (show Document.arrange ⟨"notes", []⟩ .default _ = _ from rfl)

end TermOutline
