import Mathlib.Data.List.Chain
import TermOutline.Line.Basic
import TermOutline.Proofs.Scanning

/-! # Lines of tokens

Cutting the tokens of a text without lexical faults at its line breaks leaves every line with
nothing open before it nor after it.
-/
namespace TermOutline

theorem admitted_append {scanner : Scanner} {front back : List Token} :
    Admitted scanner (front ++ back) ↔
      Admitted scanner front ∧ Admitted (front.foldl Scanner.step scanner) back := by
  induction front generalizing scanner with
  | nil => simp [Admitted]
  | cons token rest ih => simp [Admitted, ih, and_assoc]

/-- Tokens as they lie between two line breaks of a scanned text without lexical faults: nothing is
open before them nor after them. -/
structure Unbroken (tokens : List Token) : Prop where
  contiguous : ∃ offset, Contiguous offset tokens
  closed : ∃ scanner : Scanner, scanner.openings = [] ∧ Admitted scanner tokens ∧
    (tokens.foldl Scanner.step scanner).openings = []
  kinds : ∀ token ∈ tokens, token.kind.isFault = false ∧ token.kind ≠ .line

/-- A line is what lies before its break, and the break unless the text ends first. -/
def IsLine (scanner : Scanner) (offset : Nat) (line : List Token) : Prop :=
  ∃ body tail, line = body ++ tail ∧ (∀ t ∈ body, t.kind ≠ .line) ∧
    (∀ t ∈ tail, t.kind = .line) ∧ Contiguous offset body ∧ Admitted scanner body ∧
    (body.foldl Scanner.step scanner).openings = []

theorem splitLines_isLine {scanner : Scanner} {offset : Nat} {tokens : List Token}
    (admitted : Admitted scanner tokens) (contiguous : Contiguous offset tokens)
    (closed : Closed scanner tokens) :
    match splitLines tokens with
    | [] => tokens = []
    | first :: others => IsLine scanner offset first ∧
        ∀ line ∈ others, ∃ scanner offset, scanner.openings = [] ∧ IsLine scanner offset line := by
  induction tokens generalizing scanner offset with
  | nil => rfl
  | cons token rest ih =>
    have tail := ih admitted.2 contiguous.2.2 closed.2
    simp only [splitLines]
    generalize splitLines rest = lines at tail
    by_cases hk : token.kind = .line
    · simp only [hk, if_true]
      refine ⟨⟨[], [token], rfl, by simp, by simp [hk], trivial, trivial, closed.1 hk⟩, ?_⟩
      cases lines with
      | nil => simp
      | cons first others =>
        refine List.forall_mem_cons.2 ⟨⟨scanner.step token, token.span.stop, ?_, tail.1⟩, tail.2⟩
        simp [Scanner.step, hk, Scanner.abandon]
    · simp only [hk, if_false]
      cases lines with
      | nil =>
        subst tail
        refine ⟨⟨[token], [], rfl, by simpa using hk, by simp,
          ⟨contiguous.1, contiguous.2.1, trivial⟩, ⟨admitted.1, trivial⟩, closed.2⟩, by simp⟩
      | cons first others =>
        obtain ⟨⟨body, last, rfl, hb, hl, hc, ha, ho⟩, hothers⟩ := tail
        exact ⟨⟨token :: body, last, rfl, List.forall_mem_cons.2 ⟨hk, hb⟩, hl,
          ⟨contiguous.1, contiguous.2.1, hc⟩, ⟨admitted.1, ha⟩, ho⟩, hothers⟩

theorem splitLines_flatten (tokens : List Token) : (splitLines tokens).flatten = tokens := by
  induction tokens with
  | nil => rfl
  | cons token rest ih =>
    simp only [splitLines]
    split
    · simp [ih]
    · cases h : splitLines rest with
      | nil => rw [h] at ih; simp [← ih]
      | cons line lines => rw [h] at ih; simpa using ih

theorem splitLines_body {body : List Token} (h : ∀ token ∈ body, token.kind ≠ .line)
    (ne : body ≠ []) : splitLines body = [body] := by
  induction body with
  | nil => exact absurd rfl ne
  | cons token rest ih =>
    obtain ⟨first, others⟩ := List.forall_mem_cons.1 h
    rw [splitLines, if_neg first]
    cases rest with
    | nil => rfl
    | cons next more => rw [ih others (by simp)]

theorem splitLines_append {body : List Token} {last : Token}
    (h : ∀ token ∈ body, token.kind ≠ .line) (hl : last.kind = .line) (rest : List Token) :
    splitLines (body ++ last :: rest) = (body ++ [last]) :: splitLines rest := by
  induction body with
  | nil => rw [List.nil_append, splitLines, if_pos hl, List.nil_append]
  | cons token body ih =>
    obtain ⟨first, others⟩ := List.forall_mem_cons.1 h
    rw [List.cons_append, splitLines, if_neg first, ih others, List.cons_append]

theorem splitLines_part {tokens line : List Token} (h : line ∈ splitLines tokens) :
    line <:+: tokens := by
  obtain ⟨before, after, split⟩ := List.append_of_mem h
  refine ⟨before.flatten, after.flatten, ?_⟩
  rw [← splitLines_flatten tokens, split]
  simp

theorem splitLines_last {tokens line : List Token} (h : line ∈ splitLines tokens) :
    line.IsChain fun token _ => token.kind ≠ .line := by
  induction tokens generalizing line with
  | nil => cases h
  | cons token rest ih =>
    rw [splitLines] at h
    by_cases hk : token.kind = .line
    · rw [if_pos hk] at h
      rcases List.mem_cons.1 h with rfl | h
      · exact .singleton _
      · exact ih h
    · rw [if_neg hk] at h
      cases hs : splitLines rest with
      | nil =>
        rw [hs] at h
        rw [List.mem_singleton.1 h]
        exact .singleton _
      | cons first others =>
        rw [hs] at h
        rcases List.mem_cons.1 h with rfl | h
        · exact List.isChain_cons.2 ⟨fun _ _ => hk, ih (by rw [hs]; exact List.mem_cons_self)⟩
        · exact ih (by rw [hs]; exact List.mem_cons_of_mem _ h)

theorem isChain_part {R : Token → Token → Prop} {tokens part : List Token} (h : tokens.IsChain R)
    (sub : part <:+: tokens) : part.IsChain R := by
  obtain ⟨before, after, rfl⟩ := sub
  rw [List.isChain_append, List.isChain_append] at h
  exact h.1.2.1

theorem closed_append {scanner : Scanner} {front back : List Token}
    (h : ∀ token ∈ front, token.kind ≠ .line) :
    Closed scanner (front ++ back) ↔ Closed (front.foldl Scanner.step scanner) back := by
  induction front generalizing scanner with
  | nil => rfl
  | cons token rest ih =>
    obtain ⟨first, others⟩ := List.forall_mem_cons.1 h
    simp [Closed, first, ih others]

/-- Tokens are lines that each end with a break, and what follows the last break. -/
@[elab_as_elim]
theorem line_induction {motive : List Token → Prop} (tokens : List Token)
    (last : ∀ body : List Token, (∀ token ∈ body, token.kind ≠ .line) → motive body)
    (line : ∀ (body : List Token) (ending : Token) (rest : List Token),
      (∀ token ∈ body, token.kind ≠ .line) → ending.kind = .line → motive rest →
        motive (body ++ ending :: rest)) : motive tokens := by
  induction h : tokens.length using Nat.strong_induction_on generalizing tokens with
  | h n ih =>
    let within (token : Token) : Bool := token.kind != .line
    have body : ∀ token ∈ tokens.takeWhile within, token.kind ≠ .line := by
      intro token member
      simpa [within] using List.mem_takeWhile_imp member
    have split := List.takeWhile_append_dropWhile (p := within) (l := tokens)
    have stop := List.head?_dropWhile_not within tokens
    cases hd : tokens.dropWhile within with
    | nil =>
      rw [hd, List.append_nil] at split
      rw [split] at body
      exact last tokens body
    | cons ending rest =>
      rw [hd] at split stop
      rw [← split]
      refine line _ _ _ body (by simpa [within] using stop) (ih _ ?_ rest rfl)
      rw [← h, ← split, List.length_append, List.length_cons]
      omega

theorem trimTrivia_append_trivia {tokens tail : List Token} (h : ∀ t ∈ tail, t.isTrivia = true) :
    trimTrivia (tokens ++ tail) = trimTrivia tokens := by
  have gone : ∀ rest : List Token, (tail.reverse ++ rest).dropWhile Token.isTrivia =
      rest.dropWhile Token.isTrivia := by
    intro rest
    rw [List.dropWhile_append]
    have : tail.reverse.dropWhile Token.isTrivia = [] := by
      rw [List.dropWhile_eq_nil_iff]; simpa using h
    simp [this]
  unfold trimTrivia
  rw [List.dropWhile_append]
  split
  · next hd =>
    rw [List.isEmpty_iff] at hd
    have : tail.dropWhile Token.isTrivia = [] := by rw [List.dropWhile_eq_nil_iff]; exact h
    simp [hd, this]
  · rw [List.reverse_append, gone]

theorem trimTrivia_split (tokens : List Token) :
    ∃ lead trail, tokens = lead ++ trimTrivia tokens ++ trail ∧
      (∀ t ∈ lead, t.isTrivia = true) ∧ ∀ t ∈ trail, t.isTrivia = true := by
  let core := tokens.dropWhile Token.isTrivia
  refine ⟨tokens.takeWhile Token.isTrivia, (core.reverse.takeWhile Token.isTrivia).reverse, ?_,
    fun t ht => List.mem_takeWhile_imp ht,
    fun t ht => List.mem_takeWhile_imp (List.mem_reverse.1 ht)⟩
  have back : trimTrivia tokens ++ (core.reverse.takeWhile Token.isTrivia).reverse = core := by
    rw [trimTrivia, ← List.reverse_append, List.takeWhile_append_dropWhile, List.reverse_reverse]
  rw [List.append_assoc, back, List.takeWhile_append_dropWhile]

/-- The tokens of a line that say something. -/
def content (tokens : List Token) : List Token := tokens.filter fun token => !token.isTrivia

theorem content_eq_nil {tokens : List Token} (h : ∀ t ∈ tokens, t.isTrivia = true) :
    content tokens = [] := by
  simpa [content] using h

theorem content_trivia {token : Token} (h : token.isTrivia = true) (rest : List Token) :
    content (token :: rest) = content rest := by
  simp [content, h]

theorem content_significant {token : Token} (h : token.isTrivia = false) (rest : List Token) :
    content (token :: rest) = token :: content rest := by
  simp [content, h]

theorem content_append (front back : List Token) :
    content (front ++ back) = content front ++ content back := List.filter_append ..

theorem content_trimTrivia (tokens : List Token) :
    content (trimTrivia tokens) = content tokens := by
  obtain ⟨lead, trail, split, hl, ht⟩ := trimTrivia_split tokens
  conv_rhs => rw [split]
  simp [content_append, content_eq_nil hl, content_eq_nil ht]

theorem foldl_step_trivia {scanner : Scanner} {tokens : List Token}
    (h : ∀ t ∈ tokens, t.isTrivia = true ∧ t.kind ≠ .line) :
    tokens.foldl Scanner.step scanner = scanner := by
  induction tokens with
  | nil => rfl
  | cons token rest ih =>
    have ⟨⟨trivia, ne⟩, others⟩ := List.forall_mem_cons.1 h
    have same : scanner.step token = scanner := by
      cases hk : token.kind <;> simp_all [Token.isTrivia, TokenKind.isTrivia, Scanner.step]
    rw [List.foldl_cons, same, ih others]

theorem isTrivia_of_line {token : Token} (h : token.kind = .line) : token.isTrivia = true := by
  simp [Token.isTrivia, TokenKind.isTrivia, h]

/-- The trivia around a line opens and closes nothing. -/
theorem trimTrivia_admitted {scanner : Scanner} {body tail : List Token}
    (admitted : Admitted scanner body) (unbroken : ∀ t ∈ body, t.kind ≠ .line)
    (ending : ∀ t ∈ tail, t.kind = .line) :
    Admitted scanner (trimTrivia (body ++ tail)) ∧
      (trimTrivia (body ++ tail)).foldl Scanner.step scanner = body.foldl Scanner.step scanner ∧
      ∀ t ∈ trimTrivia (body ++ tail), t ∈ body := by
  rw [trimTrivia_append_trivia fun t ht => isTrivia_of_line (ending t ht)]
  obtain ⟨lead, trail, split, hlead, htrail⟩ := trimTrivia_split body
  generalize trimTrivia body = core at split
  subst split
  have lead_id : lead.foldl Scanner.step scanner = scanner :=
    foldl_step_trivia fun t ht => ⟨hlead t ht, unbroken t (by simp [ht])⟩
  have trail_id : ∀ s : Scanner, trail.foldl Scanner.step s = s := fun s =>
    foldl_step_trivia fun t ht => ⟨htrail t ht, unbroken t (by simp [ht])⟩
  rw [List.append_assoc, admitted_append, lead_id, admitted_append] at admitted
  rw [List.foldl_append, List.foldl_append, lead_id, trail_id]
  exact ⟨admitted.2.1, rfl, fun t ht => by simp [ht]⟩

theorem trimTrivia_unbroken {scanner : Scanner} {offset : Nat} {line : List Token}
    (start : scanner.openings = []) (h : IsLine scanner offset line)
    (kinds : ∀ t ∈ line, t.kind.isFault = false) : Unbroken (trimTrivia line) := by
  obtain ⟨body, tail, rfl, hb, hl, contiguous, admitted, closed⟩ := h
  obtain ⟨within, passed, members⟩ := trimTrivia_admitted admitted hb hl
  refine ⟨?_, ⟨scanner, start, within, by rw [passed]; exact closed⟩,
    fun t ht => ⟨kinds t (List.mem_append_left _ (members t ht)), hb t (members t ht)⟩⟩
  rw [trimTrivia_append_trivia fun t ht => isTrivia_of_line (hl t ht)]
  obtain ⟨lead, trail, split, _, _⟩ := trimTrivia_split body
  rw [split, List.append_assoc] at contiguous
  obtain ⟨_, contiguous⟩ := contiguous_append_iff.1 contiguous
  exact ⟨_, (contiguous_append_iff.1 contiguous).1⟩

theorem splitLines_unbroken {text : Source} (faultless : Faultless text.tokens)
    (closed : Closed .initial text.tokens) {line : List Token}
    (h : line ∈ splitLines text.tokens) : Unbroken (trimTrivia line) := by
  have kinds : ∀ t ∈ line, t.kind.isFault = false := by
    intro t ht
    apply faultless.kinds
    rw [← splitLines_flatten text.tokens]
    exact List.mem_flatten_of_mem h ht
  have lines := splitLines_isLine (scans_admitted (scans_tokens text))
    (scans_contiguous (scans_tokens text)) closed
  split at lines
  · next hs => simp [hs] at h
  · next first others hs =>
    rw [hs] at h
    rcases List.mem_cons.1 h with rfl | h
    · exact trimTrivia_unbroken rfl lines.1 kinds
    · obtain ⟨scanner, offset, start, hline⟩ := lines.2 line h
      exact trimTrivia_unbroken start hline kinds

end TermOutline
