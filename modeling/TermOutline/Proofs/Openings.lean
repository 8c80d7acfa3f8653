import TermOutline.Proofs.Diagnosis
import TermOutline.Proofs.LongestMatch

/-! # What is open

Texts and slots are open in turn, a text outermost, so a scanner reads by the rules of texts exactly
when the number of what is open is odd. A lexer that keeps its mode on its own, and only switches it
at brackets and line breaks, is never of another mind. What a line leaves open at its end is told by
the brackets of the line alone: the scanner remembers the outermost text of each such line, and
nothing else.
-/
namespace TermOutline

/-! ## Alternation -/

theorem mode_cons (opening : Opening) (outer : List Opening) (abandoned : List Span) :
    Scanner.mode ⟨opening :: outer, abandoned⟩ = .text ↔ opening.isText = true := by
  cases opening with
  | text span => exact ⟨fun _ => rfl, fun _ => rfl⟩
  | slot => exact ⟨nofun, nofun⟩

/-- What is open innermost is a text exactly when an even number of openings lies around it. -/
theorem alternating_cons {opening : Opening} {outer : List Opening}
    (h : Alternating (opening :: outer)) :
    (opening.isText = true ↔ outer.length % 2 = 0) ∧ Alternating outer := by
  induction outer generalizing opening with
  | nil =>
    cases opening with
    | text span => exact ⟨⟨fun _ => rfl, fun _ => rfl⟩, trivial⟩
    | slot => cases h.1
  | cons next outer ih =>
    cases opening with
    | text span =>
      obtain ⟨code, below⟩ := h
      have slot : ¬next.isText = true := by
        rw [← mode_cons next outer [], code]
        exact nofun
      rw [(ih below).1] at slot
      refine ⟨⟨fun _ => ?_, fun _ => rfl⟩, below⟩
      rw [List.length_cons]
      omega
    | slot =>
      obtain ⟨text, below⟩ := h
      have even := (ih below).1.1 ((mode_cons next outer []).1 text)
      refine ⟨⟨nofun, fun odd => ?_⟩, below⟩
      rw [List.length_cons] at odd
      omega

theorem mode_eq_text_iff_odd {scanner : Scanner} (h : Alternating scanner.openings) :
    scanner.mode = .text ↔ scanner.openings.length % 2 = 1 := by
  obtain ⟨openings, abandoned⟩ := scanner
  cases openings with
  | nil => exact ⟨nofun, nofun⟩
  | cons opening outer =>
    rw [mode_cons, (alternating_cons h).1, List.length_cons]
    omega

theorem isText_iff_even {openings : List Opening} (h : Alternating openings) {height : Nat}
    {opening : Opening} (place : openings.reverse[height]? = some opening) :
    opening.isText = true ↔ height % 2 = 0 := by
  induction openings with
  | nil => cases place
  | cons top outer ih =>
    obtain ⟨parity, below⟩ := alternating_cons h
    rw [List.reverse_cons] at place
    by_cases within : height < outer.length
    · apply ih below
      rwa [List.getElem?_append_left (by simpa using within)] at place
    · rw [List.getElem?_append_right (by simpa using within), List.length_reverse,
        List.getElem?_singleton] at place
      by_cases last : height - outer.length = 0
      · have size : height = outer.length := by omega
        rw [if_pos last] at place
        cases place
        rw [size]
        exact parity
      · rw [if_neg last] at place
        cases place

/-! ## A mode of its own -/

/-- A scanner that keeps the mode it reads in, and does not look at what is open to find it. -/
structure Lexer where
  mode : Mode
  scanner : Scanner
  deriving DecidableEq, Repr

namespace Lexer

def initial : Lexer := ⟨.code, .initial⟩

/-- The mode after a token. A brace switches it only if it closes a slot, and a line break only if
it gives something up. -/
def switch (lexer : Lexer) (kind : TokenKind) : Mode :=
  match kind, lexer.scanner.openings with
  | .textOpen, _ => .text
  | .slotOpen, _ | .textClose, _ => .code
  | .slotClose, .slot :: _ => .text
  | .line, _ :: _ => .code
  | _, _ => lexer.mode

def step (lexer : Lexer) (token : Token) : Lexer :=
  ⟨lexer.switch token.kind, lexer.scanner.step token⟩

/-- The tokens of a text that begins at `offset`, when its first `claimed` characters belong to a
token already given. -/
def tokensFrom (lexer : Lexer) (offset : Nat) : Nat → Source → List Token
  | _, [] => []
  | claimed + 1, _ :: rest => tokensFrom lexer offset claimed rest
  | 0, c :: rest =>
    let (kind, more) := lexer.mode.rule c rest
    let token : Token := ⟨kind, c :: rest.take more, offset⟩
    token :: tokensFrom (lexer.step token) token.span.stop more rest

/-- The lexer is in the mode that what is open calls for. -/
structure Agrees (lexer : Lexer) : Prop where
  mode : lexer.mode = lexer.scanner.mode
  alternating : Alternating lexer.scanner.openings

theorem initial_agrees : initial.Agrees := ⟨rfl, trivial⟩

theorem switch_eq {lexer : Lexer} (h : lexer.Agrees) {token : Token}
    (admitted : lexer.mode.admits token.kind = true) :
    lexer.switch token.kind = (lexer.scanner.step token).mode := by
  obtain ⟨mode, ⟨openings, abandoned⟩⟩ := lexer
  obtain ⟨agrees, alternating⟩ := h
  obtain rfl : mode = Scanner.mode ⟨openings, abandoned⟩ := agrees
  cases kind : token.kind <;> simp only [switch, Scanner.step, kind] <;> rw [kind] at admitted
  case textOpen | slotOpen => rfl
  case textClose =>
    cases openings with
    | nil => rfl
    | cons opening outer =>
      cases opening with
      | text span => exact alternating.1.symm
      | slot =>
        -- In a slot the rules of code hold, which never close a text.
        cases admitted
  case slotClose =>
    cases openings with
    | nil => rfl
    | cons opening outer =>
      cases opening with
      | text span => rfl
      | slot => exact alternating.1.symm
  case line =>
    cases openings with
    | nil => rfl
    | cons opening outer => rfl

theorem Agrees.step {lexer : Lexer} (h : lexer.Agrees) {token : Token}
    (admitted : lexer.mode.admits token.kind = true) : (lexer.step token).Agrees := by
  constructor
  · exact switch_eq h admitted
  · rw [h.mode] at admitted
    exact step_alternating h.alternating admitted

/-- It gives the tokens that a scanner gives which has no mode of its own. -/
theorem tokensFrom_eq {lexer : Lexer} (h : lexer.Agrees) (offset claimed : Nat) (text : Source) :
    lexer.tokensFrom offset claimed text = lexer.scanner.tokensFrom offset claimed text := by
  induction text generalizing lexer offset claimed with
  | nil => cases claimed <;> rfl
  | cons c rest ih =>
    cases claimed with
    | succ claimed => exact ih h offset claimed
    | zero =>
      have admitted := rule_admitted lexer.mode c rest
      rw [tokensFrom, Scanner.tokensFrom, ← h.mode]
      generalize lexer.mode.rule c rest = found at admitted
      obtain ⟨kind, more⟩ := found
      dsimp only
      rw [ih (h.step admitted)]
      rfl

theorem foldl_step_scanner (lexer : Lexer) (tokens : List Token) :
    (tokens.foldl step lexer).scanner = tokens.foldl Scanner.step lexer.scanner := by
  induction tokens generalizing lexer with
  | nil => rfl
  | cons token rest ih => exact ih (lexer.step token)

theorem Agrees.read {lexer : Lexer} (h : lexer.Agrees) {tokens : List Token}
    (admitted : Admitted lexer.scanner tokens) : (tokens.foldl Lexer.step lexer).Agrees := by
  induction tokens generalizing lexer with
  | nil => exact h
  | cons token rest ih =>
    obtain ⟨first, others⟩ := admitted
    rw [← h.mode] at first
    exact ih (h.step first) others

end Lexer

/-! ## What a line leaves open -/

/-- The bracket of a text that nothing on the line closes, before every other such bracket. -/
structure Outermost (line : List Token) (opening : Token) : Prop where
  kind : opening.kind = .textOpen
  unclosed : Brackets.texts.Unclosed line opening
  first : ∀ other, Brackets.texts.Unclosed line other → opening.start ≤ other.start

/-- What there is to remember of a line: nothing when every text and slot is closed at its end, else
the outermost text. -/
inductive LeavesOpen (line : List Token) : List Span → Prop where
  | nothing (closed : ∀ opening, ¬Brackets.texts.Unclosed line opening) : LeavesOpen line []
  | text {opening : Token} (outermost : Outermost line opening) : LeavesOpen line [opening.span]

theorem LeavesOpen.bracket {line : List Token} {spans : List Span} (h : LeavesOpen line spans)
    {span : Span} (member : span ∈ spans) :
    ∃ opening ∈ line, opening.kind = .textOpen ∧ opening.span = span := by
  cases h with
  | nothing => cases member
  | @text opening outermost =>
    obtain ⟨front, back, split, _⟩ := outermost.unclosed
    refine ⟨opening, ?_, outermost.kind, (List.mem_singleton.1 member).symm⟩
    rw [split]
    exact List.mem_append_right _ List.mem_cons_self

theorem Keeps.unclosed_iff {scanner : Scanner} {line : List Token} (h : Keeps scanner line)
    (opening : Token) :
    opening ∈ Brackets.texts.pending line ↔ Brackets.texts.Unclosed line opening :=
  ⟨Brackets.unclosed_of_mem_pending h.proper, Brackets.mem_pending_of_unclosed h.proper⟩

theorem Keeps.leavesOpen {scanner : Scanner} {line : List Token} (h : Keeps scanner line)
    (alternating : Alternating scanner.openings) {offset : Nat}
    (contiguous : Contiguous offset line) : LeavesOpen line scanner.outermost := by
  by_cases none : scanner.openings = []
  · rw [(outermost_eq_nil alternating).2 none]
    rw [h.openings, List.map_eq_nil_iff] at none
    apply LeavesOpen.nothing
    intro opening unclosed
    rw [← h.unclosed_iff, none] at unclosed
    cases unclosed
  obtain ⟨span, bottom⟩ := alternating_last alternating none
  rw [Scanner.outermost, bottom]
  rw [h.openings, List.getLast?_map] at bottom
  obtain ⟨opening, last, kept⟩ := Option.map_eq_some_iff.1 bottom
  have kind : opening.kind = .textOpen := by
    by_contra other
    rw [Opening.ofToken, if_neg other] at kept
    cases kept
  rw [Opening.ofToken, if_pos kind] at kept
  cases kept
  refine .text ⟨kind, (h.unclosed_iff opening).1 (List.mem_of_getLast? last), ?_⟩
  intro other unclosed
  -- The stack has the brackets in the order of the line, so its last one begins first.
  have order := (contiguous_pairwise contiguous).sublist (Brackets.texts.pending_sublist line)
  rw [← List.head?_reverse] at last
  obtain ⟨inner, split⟩ := List.head?_eq_some_iff.1 last
  have member := List.mem_reverse.2 ((h.unclosed_iff other).2 unclosed)
  rw [split] at order member
  rcases List.mem_cons.1 member with rfl | member
  · exact Nat.le_refl _
  · have apart := (List.pairwise_cons.1 order).1 other member
    omega

theorem Keeps.read {scanner : Scanner} {line body : List Token} (h : Keeps scanner line)
    (admitted : Admitted scanner body) (unbroken : ∀ token ∈ body, token.kind ≠ .line) :
    Keeps (body.foldl Scanner.step scanner) (line ++ body) := by
  induction body generalizing scanner line with
  | nil => rwa [List.append_nil]
  | cons token rest ih =>
    obtain ⟨first, others⟩ := List.forall_mem_cons.1 unbroken
    rw [List.append_cons]
    exact ih (h.step admitted.1 first) admitted.2 others

theorem foldl_step_alternating {scanner : Scanner} {tokens : List Token}
    (h : Alternating scanner.openings) (admitted : Admitted scanner tokens) :
    Alternating (tokens.foldl Scanner.step scanner).openings := by
  induction tokens generalizing scanner with
  | nil => exact h
  | cons token rest ih => exact ih (step_alternating h admitted.1) admitted.2

theorem foldl_step_abandoned (scanner : Scanner) {body : List Token}
    (unbroken : ∀ token ∈ body, token.kind ≠ .line) :
    (body.foldl Scanner.step scanner).abandoned = scanner.abandoned := by
  induction body generalizing scanner with
  | nil => rfl
  | cons token rest ih =>
    obtain ⟨first, others⟩ := List.forall_mem_cons.1 unbroken
    rw [List.foldl_cons, ih _ others, step_abandoned_of_ne_line first]

theorem line_keeps {scanner : Scanner} {body : List Token} (settled : scanner.openings = [])
    (admitted : Admitted scanner body) (unbroken : ∀ token ∈ body, token.kind ≠ .line) :
    Keeps (body.foldl Scanner.step scanner) body ∧
      Alternating (body.foldl Scanner.step scanner).openings := by
  have blank : Keeps scanner [] := ⟨Brackets.proper_nil, settled⟩
  refine ⟨blank.read admitted unbroken, foldl_step_alternating ?_ admitted⟩
  rw [settled]
  trivial

/-! ## Line by line -/

/-- With nothing open before them, the scanner remembers of every line of the tokens what the line
leaves open. -/
theorem lines_leaveOpen {scanner : Scanner} {tokens : List Token} {offset : Nat}
    (settled : scanner.openings = []) (admitted : Admitted scanner tokens)
    (contiguous : Contiguous offset tokens) :
    ∃ entries, List.Forall₂ LeavesOpen (splitLines tokens) entries ∧
      (tokens.foldl Scanner.step scanner).abandon.abandoned =
        scanner.abandoned ++ entries.flatten := by
  induction tokens using line_induction generalizing scanner offset with
  | last body unbroken =>
    by_cases none : body = []
    · subst none
      refine ⟨[], .nil, ?_⟩
      simp [Scanner.abandon, Scanner.outermost, settled]
    · obtain ⟨keeps, alternating⟩ := line_keeps settled admitted unbroken
      refine ⟨[(body.foldl Scanner.step scanner).outermost], ?_, ?_⟩
      · rw [splitLines_body unbroken none]
        exact .cons (keeps.leavesOpen alternating contiguous) .nil
      · simp [Scanner.abandon, foldl_step_abandoned scanner unbroken]
  | line body ending rest unbroken breaks ih =>
    obtain ⟨within, _, behind⟩ := admitted_append.1 admitted
    rw [List.append_cons] at contiguous
    obtain ⟨line, further⟩ := contiguous_append_iff.1 contiguous
    obtain ⟨keeps, alternating⟩ := line_keeps settled within unbroken
    have kept := foldl_step_abandoned scanner unbroken
    rw [List.foldl_append, List.foldl_cons]
    generalize body.foldl Scanner.step scanner = last at keeps alternating kept behind ⊢
    have given : last.step ending = last.abandon := by rw [Scanner.step, breaks]
    rw [given] at behind ⊢
    obtain ⟨entries, leave, recorded⟩ := ih rfl behind further
    refine ⟨last.outermost :: entries, ?_, ?_⟩
    · -- The break is no bracket: the line leaves open what the tokens before it do.
      have ended : Keeps last (body ++ [ending]) := by
        apply keeps.passed
        · rw [breaks]
          decide
        · intro closes
          rw [breaks] at closes
          exact absurd closes (by decide)
      rw [splitLines_append unbroken breaks]
      exact .cons (ended.leavesOpen alternating line) leave
    · rw [recorded, List.flatten_cons, ← List.append_assoc, ← kept]
      rfl

theorem unclosedTexts_leaveOpen {tokens : List Token} (admitted : Admitted .initial tokens)
    (contiguous : Contiguous 0 tokens) :
    ∃ entries, List.Forall₂ LeavesOpen (splitLines tokens) entries ∧
      unclosedTexts tokens = entries.flatten := by
  obtain ⟨entries, leave, recorded⟩ := lines_leaveOpen rfl admitted contiguous
  exact ⟨entries, leave, recorded⟩

/-- There is a line break between two stretches of the text. -/
def BreakBetween (tokens : List Token) (earlier later : Span) : Prop :=
  ∃ ending ∈ tokens, ending.kind = .line ∧ earlier.stop ≤ ending.start ∧
    ending.span.stop ≤ later.start

theorem LeavesOpen.pairwise {line : List Token} {spans : List Span} (h : LeavesOpen line spans)
    (R : Span → Span → Prop) : spans.Pairwise R := by
  cases h with
  | nothing => exact .nil
  | text => exact List.pairwise_singleton _ _

theorem leaveOpen_apart {tokens : List Token} {offset : Nat} (contiguous : Contiguous offset tokens)
    {entries : List (List Span)} (leave : List.Forall₂ LeavesOpen (splitLines tokens) entries) :
    entries.flatten.Pairwise (BreakBetween tokens) := by
  induction tokens using line_induction generalizing offset entries with
  | last body unbroken =>
    by_cases none : body = []
    · subst none
      cases leave
      exact .nil
    · rw [splitLines_body unbroken none] at leave
      cases leave with
      | cons first others =>
        cases others
        rw [List.flatten_singleton]
        exact first.pairwise _
  | line body ending rest unbroken breaks ih =>
    rw [splitLines_append unbroken breaks] at leave
    have order := contiguous_pairwise contiguous
    obtain ⟨_, behind, before⟩ := List.pairwise_append.1 order
    obtain ⟨after, _⟩ := List.pairwise_cons.1 behind
    have further := (contiguous_append_iff.1 contiguous).2.2.2
    cases leave with
    | @cons _ spans _ entries first others =>
      rw [List.flatten_cons]
      refine List.pairwise_append.2 ⟨first.pairwise _, ?_, ?_⟩
      · apply (ih further others).imp
        rintro earlier later ⟨between, member, between_breaks⟩
        exact ⟨between, List.mem_append_right _ (List.mem_cons_of_mem _ member), between_breaks⟩
      · intro earlier held later listed
        obtain ⟨opening, on, kind, rfl⟩ := first.bracket held
        have inside : opening ∈ body := by
          rcases List.mem_append.1 on with inside | last
          · exact inside
          · rw [List.mem_singleton.1 last, breaks] at kind
            cases kind
        obtain ⟨more, entry, listed⟩ := List.mem_flatten.1 listed
        obtain ⟨line, lower, leaves⟩ := forall₂_mem_right others entry
        obtain ⟨next, below, _, rfl⟩ := leaves.bracket listed
        refine ⟨ending, List.mem_append_right _ List.mem_cons_self, breaks, ?_, ?_⟩
        · exact (before opening inside ending List.mem_cons_self).2
        · exact (after next ((splitLines_part lower).subset below)).2

/-- Brackets in the order of the text, of which a line has one at most. -/
structure Recorded (tokens : List Token) (spans : List Span) : Prop where
  rising : spans.Pairwise fun earlier later => earlier.start < later.start
  apart : spans.Pairwise (BreakBetween tokens)

theorem Recorded.sublist {tokens : List Token} {spans others : List Span}
    (h : Recorded tokens spans) (sub : others.Sublist spans) : Recorded tokens others :=
  ⟨h.rising.sublist sub, h.apart.sublist sub⟩

theorem recorded_unclosedTexts {tokens : List Token} (admitted : Admitted .initial tokens)
    (contiguous : Contiguous 0 tokens) : Recorded tokens (unclosedTexts tokens) := by
  constructor
  · have starts : (tokens.map Token.start).Pairwise (· < ·) := by
      apply List.pairwise_map.2
      apply (contiguous_pairwise contiguous).imp
      intro one next apart
      omega
    exact List.pairwise_map.1 (starts.sublist (unclosedTexts_starts tokens))
  · obtain ⟨entries, leave, recorded⟩ := unclosedTexts_leaveOpen admitted contiguous
    rw [recorded]
    exact leaveOpen_apart contiguous leave

/-! ## Every text -/

/-- What holds of a lexer that has read the tokens `before` from the beginning of a text. What it
has open are the brackets that nothing has closed so far on the line. -/
structure Lexer.Sound (before : List Token) (lexer : Lexer) : Prop where
  scanner : lexer.scanner = before.foldl Scanner.step .initial
  alternates : ∀ height opening, lexer.scanner.openings.reverse[height]? = some opening →
    (opening.isText = true ↔ height % 2 = 0)
  mode : lexer.mode = .text ↔ lexer.scanner.openings.length % 2 = 1
  held : ∃ brackets : List Token, lexer.scanner.openings = brackets.map Opening.ofToken ∧
    ∀ opening, opening ∈ brackets ↔ Brackets.texts.Unclosed (lastLine before) opening
  recorded : Recorded before lexer.scanner.abandoned

theorem Lexer.sound_read {before : List Token} (admitted : Admitted .initial before)
    (contiguous : Contiguous 0 before) :
    Lexer.Sound before (before.foldl Lexer.step .initial) := by
  have scanner := Lexer.foldl_step_scanner .initial before
  have agrees : (before.foldl Lexer.step .initial).Agrees := Lexer.initial_agrees.read admitted
  have keeps := keeps_lastLine admitted
  constructor
  case scanner => exact scanner
  case alternates =>
    intro height opening place
    exact isText_iff_even agrees.alternating place
  case mode =>
    rw [agrees.mode]
    exact mode_eq_text_iff_odd agrees.alternating
  case held =>
    refine ⟨Brackets.texts.pending (lastLine before), ?_, keeps.unclosed_iff⟩
    rw [scanner]
    exact keeps.openings
  case recorded =>
    apply (recorded_unclosedTexts admitted contiguous).sublist
    rw [scanner]
    exact List.sublist_append_left _ _

/-- A lexer that keeps its mode on its own gives the tokens of a text. After any number of them what
is open alternates, and the mode is that of texts when the number of what is open is odd. At the end
of the text one bracket is remembered of each line that ends with something open, the outermost. -/
theorem lexer_abandons_outermost (text : Source) :
    Lexer.initial.tokensFrom 0 0 text = text.tokens ∧
    (∀ count, Lexer.Sound (text.tokens.take count)
      ((text.tokens.take count).foldl Lexer.step .initial)) ∧
    Recorded text.tokens (unclosedTexts text.tokens) ∧
    ∃ entries, List.Forall₂ LeavesOpen (splitLines text.tokens) entries ∧
      unclosedTexts text.tokens = entries.flatten := by
  have scans := scans_tokens text
  have admitted := scans_admitted scans
  have contiguous := scans_contiguous scans
  refine ⟨Lexer.tokensFrom_eq Lexer.initial_agrees 0 0 text, ?_, ?_, ?_⟩
  · intro count
    rw [← List.take_append_drop count text.tokens] at admitted contiguous
    apply Lexer.sound_read
    · exact (admitted_append.1 admitted).1
    · exact (contiguous_append_iff.1 contiguous).1
  · exact recorded_unclosedTexts admitted contiguous
  · exact unclosedTexts_leaveOpen admitted contiguous

-- The first line ends in a slot of a text, the second with everything closed, the last in a text.
example : unclosedTexts (Source.tokens
    ['<', 'a', '\x7b', '<', '\n', '<', 'b', '>', '\n', '\x7d', '<']) = [⟨0, 1⟩, ⟨10, 11⟩] := by
  decide

end TermOutline
