import TermOutline.Line.Grouping
import TermOutline.Settings.Basic

/-!
# Lines

A document's tokens fall into lines, each up to and including its line break. A line of trivia
alone counts for nothing. Any other line has a depth, from the spaces it starts with, and a list of
items from its first token that is not trivia to its last.
-/
namespace TermOutline

structure Line where
  depth : Nat
  indent : Span
  span : Span
  items : List Item

/-- The tokens cut after each line break. -/
def splitLines : List Token → List (List Token)
  | [] => []
  | token :: rest =>
    if token.kind = .line then [token] :: splitLines rest
    else match splitLines rest with
      | [] => [[token]]
      | line :: lines => (token :: line) :: lines

/-- The tokens without the trivia at either end. -/
def trimTrivia (tokens : List Token) : List Token :=
  ((tokens.dropWhile Token.isTrivia).reverse.dropWhile Token.isTrivia).reverse

/-- The spaces a line starts with; an empty span when there are none. -/
def indentSpan : List Token → Span
  | [] => Span.emptyAt 0
  | token :: _ => if token.kind = .space then token.span else Span.emptyAt token.start

/-- The stretch from the first of the tokens to the last. -/
def tokenSpan (first : Token) (rest : List Token) : Span :=
  first.span.cover ((first :: rest).getLast (List.cons_ne_nil first rest)).span

def indentFindings (indent : Span) (unit : Nat) : List Finding :=
  if indent.length % unit = 0 then [] else [⟨.oddIndent indent.length unit, indent⟩]

/-- The line that the tokens between two line breaks make, with what was found in it. -/
def Line.ofTokens? (settings : Settings) (tokens : List Token) :
    Except Breach (Option (Line × List Finding)) :=
  match trimTrivia tokens with
  | [] => .ok none
  | first :: rest => do
    let indent := indentSpan tokens
    let grouping ← Grouping.ofTokens (first :: rest)
    let line : Line :=
      { depth := indent.length / settings.indentWidth
        indent := indent
        span := tokenSpan first rest
        items := grouping.items }
    let commas := lineStrayCommas grouping.items
    return some (line, indentFindings indent settings.indentWidth ++ grouping.findings
      ++ commas.map fun span => ⟨.strayComma, span⟩)

/-- Every line of the tokens that is not trivia alone, each with what was found in it. -/
def readLines (settings : Settings) (tokens : List Token) :
    Except Breach (List (Line × List Finding)) := do
  let lines ← (splitLines tokens).mapM (Line.ofTokens? settings)
  return lines.filterMap id

/-- The lines of a document, from tokens of it. -/
def Document.group (document : Document) (settings : Settings) (tokens : List Token) :
    Except Failure (List Line) :=
  match readLines settings tokens with
  | .error breach => .error (.broken breach)
  | .ok lines =>
    (document.accept (lines.flatMap Prod.snd) (lines.map Prod.fst)).mapError Failure.rejected

/-- The lines of a document with all the tokens they were made from, trivia included. -/
def Document.arrange (document : Document) (settings : Settings) (tokens : List Token) :
    Except Failure (List Token × List Line) := do
  let lines ← document.group settings tokens
  return (tokens, lines)

end TermOutline
