import TermOutline.Token.Rules

/-!
# Scanning

The scanner cuts a text into tokens. It keeps the texts and slots that are open, innermost first;
the innermost one decides which rules apply. Nothing stays open past the end of a line: a line
break abandons whatever is open and remembers where the outermost of it began. The end of the text
does the same.
-/
namespace TermOutline

inductive Opening where
  | text (span : Span)
  | slot
  deriving DecidableEq, Repr

structure Scanner where
  openings : List Opening
  abandoned : List Span
  deriving DecidableEq, Repr

namespace Scanner

def initial : Scanner := ⟨[], []⟩

def mode (scanner : Scanner) : Mode :=
  match scanner.openings with
  | .text _ :: _ => .text
  | _ => .code

/-- The bracket of the outermost text that is open, if any. -/
def outermost (scanner : Scanner) : List Span :=
  match scanner.openings.getLast? with
  | some (.text span) => [span]
  | _ => []

/-- Gives up everything that is open. -/
def abandon (scanner : Scanner) : Scanner :=
  ⟨[], scanner.abandoned ++ scanner.outermost⟩

def step (scanner : Scanner) (token : Token) : Scanner :=
  match token.kind with
  | .textOpen => { scanner with openings := .text token.span :: scanner.openings }
  | .slotOpen => { scanner with openings := .slot :: scanner.openings }
  | .textClose => { scanner with openings := scanner.openings.tail }
  | .slotClose =>
    match scanner.openings with
    | .slot :: outer => { scanner with openings := outer }
    | _ => scanner
  | .line => scanner.abandon
  | _ => scanner

/-- The tokens of a text that begins at `offset`, when its first `claimed` characters belong to a
token already given. -/
def tokensFrom (scanner : Scanner) (offset : Nat) : Nat → Source → List Token
  | _, [] => []
  | claimed + 1, _ :: rest => tokensFrom scanner offset claimed rest
  | 0, c :: rest =>
    let (kind, more) := scanner.mode.rule c rest
    let token : Token := ⟨kind, c :: rest.take more, offset⟩
    token :: tokensFrom (scanner.step token) token.span.stop more rest

/-- The scanner after each of the tokens. -/
def states (scanner : Scanner) : List Token → List Scanner
  | [] => []
  | token :: rest => scanner.step token :: states (scanner.step token) rest

end Scanner

/-- Every token of a text, in order. -/
def Source.tokens (text : Source) : List Token :=
  Scanner.initial.tokensFrom 0 0 text

/-- The opening brackets of the texts that a list of tokens leaves open at the end of a line or at
the end of the list, the outermost one of each line. -/
def unclosedTexts (tokens : List Token) : List Span :=
  (tokens.foldl Scanner.step Scanner.initial).abandon.abandoned

end TermOutline
