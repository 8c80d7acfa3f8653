import TermOutline.Token.Basic

/-!
# Lexical rules

There are two sets of rules. Code has terms, numbers, codes and punctuation; between the angle
brackets of a text everything is literal up to a closing bracket, a brace or a backslash. Each rule
takes the longest run of characters it can. A rule is given the first character of a token and the
characters after it, and answers the kind of the token and how many further characters it takes.
-/
namespace TermOutline

inductive Mode where
  | code
  | text
  deriving DecidableEq, Repr

namespace Mode

/-- How many characters at the front satisfy `p`. -/
def run (p : Char → Bool) (rest : Source) : Nat := (rest.takeWhile p).length

/-- Terms go on with lowercase letters, digits and hyphens. -/
def continuesTerm (c : Char) : Bool := c.isLower || c.isDigit || c == '-'

/-- Cuts are runs of characters that have no meaning of their own inside a text. -/
def continuesCut (c : Char) : Bool :=
  !(c == '>' || c == '\x7b' || c == '\x7d' || c == '\\' || c == '\r' || c == '\n')

/-- Characters that a backslash makes literal. -/
def isEscapable (c : Char) : Bool :=
  c == '<' || c == '>' || c == '\x7b' || c == '\x7d' || c == '\\'

/-- What follows the first digit of a number: digits, and a point makes it a decimal, also when no
digit follows the point. -/
def numberRule (rest : Source) : TokenKind × Nat :=
  let digits := run Char.isDigit rest
  match rest.drop digits with
  | '.' :: fraction => (.decimal, digits + 1 + run Char.isDigit fraction)
  | _ => (.size, digits)

/-- A carriage return is a line break only together with a line feed. -/
def returnRule : Source → TokenKind × Nat
  | '\n' :: _ => (.line, 1)
  | _ => (.unknown, 0)

/-- A hyphen is the sign of a number when a digit follows. -/
def signRule : Source → TokenKind × Nat
  | digit :: rest =>
    if digit.isDigit then
      let (kind, more) := numberRule rest
      (kind, more + 1)
    else (.unknown, 0)
  | [] => (.unknown, 0)

/-- A backslash makes one character literal; it may not stand before a line break or at the end. -/
def escapeRule : Source → TokenKind × Nat
  | c :: _ =>
    if isEscapable c then (.textCut, 1)
    else if c == '\r' || c == '\n' then (.unknown, 0)
    else (.badEscape, 1)
  | [] => (.unknown, 0)

def codeRule (c : Char) (rest : Source) : TokenKind × Nat :=
  if c.isLower then (.term, run continuesTerm rest)
  else if c.isDigit then numberRule rest
  else match c with
    | ' ' => (.space, run (· == ' ') rest)
    | '\t' => (.tab, run (· == '\t') rest)
    | '\n' => (.line, 0)
    | '\r' => returnRule rest
    | '-' => signRule rest
    | '#' => (.code, run Char.isAlphanum rest)
    | ',' => (.comma, 0)
    | '(' => (.parenOpen, 0)
    | ')' => (.parenClose, 0)
    | '<' => (.textOpen, 0)
    | '\x7d' => (.slotClose, 0)
    | _ => (.unknown, 0)

def textRule (c : Char) (rest : Source) : TokenKind × Nat :=
  match c with
  | '>' => (.textClose, 0)
  | '\x7b' => (.slotOpen, 0)
  | '\x7d' => (.textBrace, 0)
  | '\\' => escapeRule rest
  | '\r' => returnRule rest
  | '\n' => (.line, 0)
  | _ => (.textCut, run continuesCut rest)

/-- The rule for the token that begins with `c` when `rest` follows. -/
def rule : Mode → Char → Source → TokenKind × Nat
  | .code => codeRule
  | .text => textRule

end Mode

end TermOutline
