import TermOutline.Proofs.Stages

/-! # What grouping needs

Grouping is made for the tokens that the lexical stage passes on. Handed the tokens of any text, it
breaks the agreement exactly when one of them is a fault or a text is left open. The lexical stage
refuses these texts, and those with a malformed number besides.
-/
namespace TermOutline

/-- Tokens that grouping has no place for. -/
def Ungroupable (tokens : List Token) : Prop :=
  (∃ token ∈ tokens, token.kind.isFault = true) ∨ unclosedTexts tokens ≠ []

/-- A code without a base or digits of it, or a decimal without a digit after the point. -/
def Token.Malformed (token : Token) : Prop :=
  (token.kind = .code ∧ ¬IsCode token.text) ∨ (token.kind = .decimal ∧ ¬IsDecimal token.text)

namespace Grouping

theorem step_fault {token : Token} (fault : token.kind.isFault = true) (previous : Option Token)
    (grouping : Grouping) : grouping.step previous token = .error (.faultToken token.kind) := by
  cases hk : token.kind <;> rw [hk] at fault
  case tab | badEscape | textBrace | unknown => rw [step, hk]
  all_goals cases fault

/-- A fault is reached unless something else stops grouping before it. -/
theorem read_fault {tokens : List Token} {token : Token} (member : token ∈ tokens)
    (fault : token.kind.isFault = true) (previous : Option Token) (grouping last : Grouping) :
    grouping.read previous tokens ≠ .ok last := by
  induction tokens generalizing previous grouping with
  | nil => cases member
  | cons first rest ih =>
    intro hr
    obtain ⟨next, hs, hr⟩ := read_cons hr
    rcases List.mem_cons.1 member with rfl | member
    · rw [step_fault fault] at hs
      cases hs
    · exact ih member (some first) next hr

theorem ofTokens_ok_iff {scanner : Scanner} {tokens : List Token} (start : scanner.openings = [])
    (admitted : Admitted scanner tokens) (unbroken : ∀ token ∈ tokens, token.kind ≠ .line) :
    (∃ grouping, ofTokens tokens = .ok grouping) ↔
      (∀ token ∈ tokens, token.kind.isFault = false) ∧
        (tokens.foldl Scanner.step scanner).openings = [] := by
  by_cases sound : ∀ token ∈ tokens, token.kind.isFault = false
  · have begin : Tracks scanner initial := ⟨start.symm, trivial⟩
    have fresh : Follows none initial := fun _ absent => nomatch absent
    obtain ⟨last, hr, ht⟩ := read_tracks begin fresh admitted
      fun token member => ⟨sound token member, unbroken token member⟩
    rw [ofTokens, hr]
    exact (finish_tracks ht).trans (iff_and_self.2 fun _ => sound)
  · constructor
    · rintro ⟨grouping, hg⟩
      push Not at sound
      obtain ⟨token, member, fault⟩ := sound
      cases hr : initial.read none tokens with
      | error breach =>
        rw [ofTokens, hr] at hg
        cases hg
      | ok last => exact absurd hr (read_fault member (by simpa using fault) _ _ _)
    · rintro ⟨none, _⟩
      exact absurd none sound

end Grouping

theorem ofTokens?_ok_iff (settings : Settings) (tokens : List Token) :
    (∃ line, Line.ofTokens? settings tokens = .ok line) ↔
      ∃ grouping, Grouping.ofTokens (trimTrivia tokens) = .ok grouping := by
  rw [Line.ofTokens?]
  cases trimTrivia tokens with
  | nil => exact ⟨fun _ => ⟨.initial, rfl⟩, fun _ => ⟨none, rfl⟩⟩
  | cons first rest =>
    dsimp only
    cases Grouping.ofTokens (first :: rest) with
    | error breach =>
      constructor
      · rintro ⟨_, ⟨⟩⟩
      · rintro ⟨_, ⟨⟩⟩
    | ok grouping => exact ⟨fun _ => ⟨grouping, rfl⟩, fun _ => ⟨_, rfl⟩⟩

theorem line_ok_iff (settings : Settings) {scanner : Scanner} {body tail : List Token}
    (start : scanner.openings = []) (admitted : Admitted scanner body)
    (unbroken : ∀ token ∈ body, token.kind ≠ .line)
    (ending : ∀ token ∈ tail, token.kind = .line) :
    (∃ line, Line.ofTokens? settings (body ++ tail) = .ok line) ↔
      (∀ token ∈ body, token.kind.isFault = false) ∧
        (body.foldl Scanner.step scanner).openings = [] := by
  obtain ⟨within, passed, members⟩ := trimTrivia_admitted admitted unbroken ending
  rw [ofTokens?_ok_iff, Grouping.ofTokens_ok_iff start within
    fun token member => unbroken token (members token member), passed]
  refine and_congr_left fun _ => ⟨fun sound token member => ?_,
    fun sound token member => sound token (members token member)⟩
  -- a fault is no trivia, so trimming leaves it in place
  by_contra fault
  have said : token.isTrivia = false := by
    cases hk : token.kind <;> simp_all [Token.isTrivia, TokenKind.isTrivia, TokenKind.isFault]
  have kept : token ∈ content (trimTrivia (body ++ tail)) := by
    rw [content_trimTrivia]
    exact List.mem_filter.2 ⟨List.mem_append_left _ member, by rw [said]; rfl⟩
  exact fault (sound token (List.mem_filter.1 kept).1)

theorem mapM_cons_ok_iff {α β : Type} (f : α → Except Breach β) (first : α) (rest : List α) :
    (∃ results, (first :: rest).mapM f = .ok results) ↔
      (∃ result, f first = .ok result) ∧ ∃ results, rest.mapM f = .ok results := by
  rw [List.mapM_cons]
  cases f first with
  | error breach =>
    constructor
    · rintro ⟨_, ⟨⟩⟩
    · rintro ⟨⟨_, ⟨⟩⟩, _⟩
  | ok result =>
    cases rest.mapM f with
    | error breach =>
      constructor
      · rintro ⟨_, ⟨⟩⟩
      · rintro ⟨_, _, ⟨⟩⟩
    | ok results => exact ⟨fun _ => ⟨⟨result, rfl⟩, results, rfl⟩, fun _ => ⟨_, rfl⟩⟩

theorem splitLines_ok_iff (settings : Settings) {scanner : Scanner} {body : List Token}
    (start : scanner.openings = []) (admitted : Admitted scanner body)
    (unbroken : ∀ token ∈ body, token.kind ≠ .line) :
    (∃ lines, (splitLines body).mapM (Line.ofTokens? settings) = .ok lines) ↔
      (∀ token ∈ body, token.kind.isFault = false) ∧
        (body.foldl Scanner.step scanner).openings = [] := by
  by_cases empty : body = []
  · subst empty
    exact ⟨fun _ => ⟨by simp, start⟩, fun _ => ⟨[], rfl⟩⟩
  · have whole := @line_ok_iff settings scanner body [] start admitted unbroken (by simp)
    rw [List.append_nil] at whole
    rw [splitLines_body unbroken empty, mapM_cons_ok_iff, whole]
    exact and_iff_left ⟨[], rfl⟩

theorem lines_ok_iff (settings : Settings) {scanner : Scanner} {tokens : List Token}
    (start : scanner.openings = []) (admitted : Admitted scanner tokens) :
    (∃ lines, (splitLines tokens).mapM (Line.ofTokens? settings) = .ok lines) ↔
      (∀ token ∈ tokens, token.kind.isFault = false) ∧ Closed scanner tokens := by
  induction tokens using line_induction generalizing scanner with
  | last body unbroken =>
    have closed := @closed_append scanner body [] unbroken
    rw [List.append_nil] at closed
    rw [closed]
    exact splitLines_ok_iff settings start admitted unbroken
  | line body ending rest unbroken hl ih =>
    obtain ⟨before, _, after⟩ := admitted_append.1 admitted
    have fresh : ((body.foldl Scanner.step scanner).step ending).openings = [] := by
      simp [Scanner.step, hl, Scanner.abandon]
    have sound : TokenKind.line.isFault = false := rfl
    rw [splitLines_append unbroken hl, mapM_cons_ok_iff, ih fresh after, closed_append unbroken,
      line_ok_iff settings start before unbroken (by simpa using hl)]
    simp only [List.forall_mem_append, List.forall_mem_cons, Closed, hl, sound]
    tauto

theorem mapError_ne_broken {α : Type} (result : Except Report α) (breach : Breach) :
    result.mapError Failure.rejected ≠ .error (.broken breach) := by
  cases result <;> simp [Except.mapError]

theorem group_broken_iff (document : Document) (settings : Settings) (tokens : List Token) :
    (∃ breach, document.group settings tokens = .error (.broken breach)) ↔
      ¬∃ lines, (splitLines tokens).mapM (Line.ofTokens? settings) = .ok lines := by
  rw [Document.group, readLines]
  cases (splitLines tokens).mapM (Line.ofTokens? settings) with
  | error breach =>
    constructor
    · rintro _ ⟨_, ⟨⟩⟩
    · intro _
      exact ⟨breach, rfl⟩
  | ok lines =>
    constructor
    · rintro ⟨breach, broken⟩
      exact absurd broken (mapError_ne_broken _ breach)
    · intro none
      exact absurd ⟨lines, rfl⟩ none

theorem ungroupable_iff (text : Source) :
    Ungroupable text.tokens ↔
      ¬((∀ token ∈ text.tokens, token.kind.isFault = false) ∧ Closed .initial text.tokens) := by
  rw [Ungroupable, Ne, unclosedTexts_eq_nil_iff, not_and_or]
  simp

theorem faultless_iff (tokens : List Token) :
    Faultless tokens ↔ (∀ token ∈ tokens, token.kind.isFault = false) ∧
      ¬∃ token ∈ tokens, token.Malformed := by
  constructor
  · rintro ⟨kinds, codes, decimals⟩
    refine ⟨kinds, ?_⟩
    rintro ⟨token, member, ⟨code, bad⟩ | ⟨decimal, bad⟩⟩
    · exact bad (codes token member code)
    · exact bad (decimals token member decimal)
  · rintro ⟨kinds, none⟩
    refine ⟨kinds, fun token member code => ?_, fun token member decimal => ?_⟩
    · by_contra bad
      exact none ⟨token, member, Or.inl ⟨code, bad⟩⟩
    · by_contra bad
      exact none ⟨token, member, Or.inr ⟨decimal, bad⟩⟩

theorem tokenize_error_iff (document : Document) :
    (∃ report, document.tokenize = .error report) ↔
      ¬(Faultless document.text.tokens ∧ Closed .initial document.text.tokens) := by
  constructor
  · rintro ⟨report, refused⟩ sound
    rw [(tokenize_eq_ok_iff document).2 sound] at refused
    cases refused
  · exact (tokenize_cases document).resolve_left

/-- Handed the tokens of a text, grouping breaks the agreement exactly when one of them is a fault
or a text is left open. The lexical stage refuses these tokens, and malformed numbers besides. -/
theorem group_breaks_iff_ungroupable (document : Document) (settings : Settings) :
    ((∃ breach, document.group settings document.text.tokens = .error (.broken breach)) ↔
      Ungroupable document.text.tokens) ∧
    ((∃ report, document.tokenize = .error report) ↔
      Ungroupable document.text.tokens ∨ ∃ token ∈ document.text.tokens, token.Malformed) := by
  have admitted := scans_admitted (scans_tokens document.text)
  refine ⟨?_, ?_⟩
  · rw [group_broken_iff, lines_ok_iff settings rfl admitted, ungroupable_iff]
  · rw [tokenize_error_iff, faultless_iff, ungroupable_iff, and_right_comm, not_and_or, not_not]

end TermOutline
