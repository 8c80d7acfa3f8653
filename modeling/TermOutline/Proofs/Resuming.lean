import TermOutline.Proofs.Lookahead
import TermOutline.Proofs.Relocation

/-! # Scanning on

No rule looks past a line feed, and a line break leaves nothing open. So after whole lines the
scanner goes on as at the start of a text, but for the place it has reached and the spans it
remembers.
-/
namespace TermOutline

/-- A text whose last line, if there is one, ends with a line feed. -/
def WholeText (text : Source) : Prop := text = [] ∨ text.getLast? = some '\n'

/-- Tokens the last of which, if there is one, is a line break. -/
def WholeLines (tokens : List Token) : Prop := ∀ last ∈ tokens.getLast?, last.kind = .line

theorem WholeLines.tail {token : Token} {rest : List Token} (h : WholeLines (token :: rest)) :
    WholeLines rest := by
  cases rest with
  | nil => simp [WholeLines]
  | cons next more => simpa [WholeLines, List.getLast?_cons_cons] using h

theorem scans_wholeLines {scanner : Scanner} {offset : Nat} {text : Source} {tokens : List Token}
    (h : Scans scanner offset text tokens) (whole : WholeText text) : WholeLines tokens := by
  intro last final
  obtain ⟨front, rfl⟩ := List.getLast?_eq_some_iff.1 final
  have ends := scans_endsLine h last (by simp)
  have nonempty : last.text ≠ [] := (contiguous_append_iff.1 (scans_contiguous h)).2.2.1
  rw [← scans_text h, List.flatMap_append, List.flatMap_singleton] at whole
  rcases whole with none | feed
  · exact absurd (List.append_eq_nil_iff.1 none).2 nonempty
  · rw [List.getLast?_append_of_ne_nil _ nonempty] at feed
    exact ends.of_mem (List.mem_of_getLast? feed)

/-- What follows whole lines does not change how they are scanned. -/
theorem scans_append {scanner : Scanner} {offset : Nat} {text more : Source}
    {tokens others : List Token} (h : Scans scanner offset text tokens) (whole : WholeText text)
    (next : Scans (tokens.foldl Scanner.step scanner) (offset + text.byteLength) more others) :
    Scans scanner offset (text ++ more) (tokens ++ others) := by
  have lines := scans_wholeLines h whole
  have parts := scans_text h
  rw [← parts] at next ⊢
  rw [← List.append_nil tokens] at h
  exact scans_swap h (fun last final => Or.inl (lines last final)) next

theorem scans_unique {scanner : Scanner} {offset : Nat} {text : Source} {tokens : List Token}
    (h : Scans scanner offset text tokens) : tokens = scanner.tokensFrom offset 0 text := by
  induction h with
  | nil => rfl
  | @cons scanner offset c rest token count tokens rule text start _ ih =>
    have first : (⟨token.kind, c :: rest.take count, offset⟩ : Token) = token := by
      rw [← text, ← start]
    rw [Scanner.tokensFrom, rule]
    dsimp only
    rw [first, Scanner.tokensFrom_claimed, ← ih]

section Resumed

variable (move : Relocation)

def Opening.relocate : Opening → Opening
  | .text span => .text (move.span span)
  | .slot => .slot

/-- The scanner as it goes on at another place, with spans from earlier lines to remember. -/
def Scanner.resume (earlier : List Span) (scanner : Scanner) : Scanner :=
  ⟨scanner.openings.map (Opening.relocate move), earlier ++ scanner.abandoned.map move.span⟩

variable (earlier : List Span)

theorem outermost_resume (scanner : Scanner) :
    (scanner.resume move earlier).outermost = scanner.outermost.map move.span := by
  rw [Scanner.outermost, Scanner.outermost, Scanner.resume, List.getLast?_map]
  rcases scanner.openings.getLast? with _ | ⟨_ | _⟩ <;> rfl

theorem abandon_resume (scanner : Scanner) :
    (scanner.resume move earlier).abandon = scanner.abandon.resume move earlier := by
  rw [Scanner.abandon, outermost_resume]
  simp [Scanner.resume, Scanner.abandon]

theorem step_resume (scanner : Scanner) (token : Token) :
    (scanner.resume move earlier).step (move.token token) =
      (scanner.step token).resume move earlier := by
  cases hk : token.kind <;> simp only [Scanner.step, move.kind_token, hk]
  case line => exact abandon_resume move earlier scanner
  case textOpen => simp [Scanner.resume, Opening.relocate]
  case slotOpen => rfl
  case textClose => simp [Scanner.resume]
  case slotClose => rcases scanner with ⟨_ | ⟨_ | _, outer⟩, abandoned⟩ <;> rfl

theorem foldl_step_resume (scanner : Scanner) (tokens : List Token) :
    (tokens.map move.token).foldl Scanner.step (scanner.resume move earlier) =
      (tokens.foldl Scanner.step scanner).resume move earlier := by
  induction tokens generalizing scanner with
  | nil => rfl
  | cons token rest ih => rw [List.map_cons, List.foldl_cons, step_resume, ih, List.foldl_cons]

theorem unclosedTexts_relocate (tokens : List Token) :
    unclosedTexts (tokens.map move.token) = (unclosedTexts tokens).map move.span := by
  have resumed := foldl_step_resume move [] .initial tokens
  rw [show Scanner.initial.resume move [] = .initial from rfl] at resumed
  rw [unclosedTexts, resumed, abandon_resume]
  rfl

end Resumed

def Opening.isText : Opening → Bool
  | .text _ => true
  | .slot => false

/-- Scanners that have texts and slots open in the same order, wherever these began. -/
def Scanner.Like (scanner other : Scanner) : Prop :=
  other.openings.map Opening.isText = scanner.openings.map Opening.isText

namespace Scanner.Like

variable {scanner other : Scanner} (h : scanner.Like other)

include h

theorem openings_eq_nil_iff : other.openings = [] ↔ scanner.openings = [] := by
  rw [← List.map_eq_nil_iff, show other.openings.map Opening.isText = _ from h, List.map_eq_nil_iff]

theorem mode : other.mode = scanner.mode := by
  rcases scanner with ⟨_ | ⟨_ | _, outer⟩, _⟩ <;> rcases other with ⟨_ | ⟨_ | _, outer'⟩, _⟩ <;>
    first | rfl | exact absurd (congrArg List.head? h) (by simp [Opening.isText])

theorem step {token moved : Token} (kind : moved.kind = token.kind) :
    (scanner.step token).Like (other.step moved) := by
  cases hk : token.kind <;> simp only [Scanner.step, kind, hk] <;> try exact h
  case line => rfl
  case textOpen => exact congrArg (true :: ·) h
  case slotOpen => exact congrArg (false :: ·) h
  case textClose =>
    rw [Scanner.Like, List.map_tail, List.map_tail]
    exact congrArg List.tail h
  case slotClose =>
    rcases scanner with ⟨_ | ⟨_ | _, outer⟩, _⟩ <;> rcases other with ⟨_ | ⟨_ | _, outer'⟩, _⟩ <;>
      first
        | exact h
        | exact congrArg List.tail h
        | exact absurd (congrArg List.head? h) (by simp [Opening.isText])

end Scanner.Like

/-- What follows a place hangs on what is open there, and moves along with the place. -/
theorem scans_like {scanner other : Scanner} {offset : Nat} {text : Source} {tokens : List Token}
    (h : Scans scanner offset text tokens) (like : scanner.Like other) (bytes : Nat) :
    Scans other (offset + bytes) text (tokens.map fun token => token.shift bytes) := by
  induction h generalizing other with
  | nil => exact .nil _ _
  | @cons scanner offset c rest token count tokens rule text start _ ih =>
    have reach := (Relocation.shift bytes).stop_token token
    refine .cons (by rw [like.mode]; exact rule) text (congrArg (· + bytes) start) ?_
    exact reach ▸ ih (like.step rfl)

theorem closed_like {scanner other : Scanner} {tokens : List Token} (h : Closed scanner tokens)
    (like : scanner.Like other) (move : Relocation) : Closed other (tokens.map move.token) := by
  induction tokens generalizing scanner other with
  | nil => exact like.openings_eq_nil_iff.2 h
  | cons token rest ih =>
    refine ⟨?_, ih h.2 (like.step (move.kind_token token))⟩
    rw [move.kind_token]
    intro line
    exact like.openings_eq_nil_iff.2 (h.1 line)

theorem Scanner.like_resume (move : Relocation) (earlier : List Span) (scanner : Scanner) :
    scanner.Like (scanner.resume move earlier) := by
  have same : Opening.isText ∘ Opening.relocate move = Opening.isText := by
    funext opening
    cases opening <;> rfl
  rw [Scanner.Like, Scanner.resume, List.map_map, same]

theorem scans_resume {scanner : Scanner} {offset : Nat} {text : Source} {tokens : List Token}
    (h : Scans scanner offset text tokens) (earlier : List Span) (bytes : Nat) :
    Scans (scanner.resume (.shift bytes) earlier) (offset + bytes) text
      (tokens.map fun token => token.shift bytes) :=
  scans_like h (scanner.like_resume _ earlier) bytes

theorem WholeLines.settled {tokens : List Token} (h : WholeLines tokens) {scanner : Scanner}
    (start : scanner.openings = []) : (tokens.foldl Scanner.step scanner).openings = [] := by
  cases hl : tokens.getLast? with
  | none => rwa [List.getLast?_eq_none_iff.1 hl]
  | some last =>
    obtain ⟨front, rfl⟩ := List.getLast?_eq_some_iff.1 hl
    rw [List.foldl_append, List.foldl_cons, List.foldl_nil]
    simp [Scanner.step, h last hl, Scanner.abandon]

/-- After whole lines nothing but the texts they leave open is remembered. -/
theorem foldl_step_whole {text : Source} (whole : WholeText text) (move : Relocation) :
    text.tokens.foldl Scanner.step .initial =
      Scanner.initial.resume move (unclosedTexts text.tokens) := by
  have settled := @WholeLines.settled _ (scans_wholeLines (scans_tokens text) whole) .initial rfl
  rw [unclosedTexts]
  generalize text.tokens.foldl Scanner.step .initial = last at settled ⊢
  rcases last with ⟨openings, abandoned⟩
  cases settled
  simp [Scanner.resume, Scanner.initial, Scanner.abandon, Scanner.outermost]

theorem tokens_append {text : Source} (whole : WholeText text) (more : Source) :
    (text ++ more).tokens =
      text.tokens ++ more.tokens.map fun token => token.shift text.byteLength := by
  have next := scans_resume (scans_tokens more) (unclosedTexts text.tokens) text.byteLength
  rw [← foldl_step_whole whole] at next
  exact (scans_unique (scans_append (scans_tokens text) whole next)).symm

theorem unclosedTexts_append {text : Source} (whole : WholeText text) (more : Source) :
    unclosedTexts (text ++ more).tokens = unclosedTexts text.tokens ++
      (unclosedTexts more.tokens).map fun span => span.shift text.byteLength := by
  have resumed := foldl_step_resume (.shift text.byteLength) (unclosedTexts text.tokens) .initial
    more.tokens
  rw [tokens_append whole, unclosedTexts, List.foldl_append, foldl_step_whole whole]
  exact (congrArg (·.abandon.abandoned) resumed).trans
    (congrArg Scanner.abandoned (abandon_resume _ _ _))

end TermOutline
