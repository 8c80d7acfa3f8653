import TermOutline.Source
import TermOutline.Span

/-!
# Tokens

Every character of a text belongs to exactly one token. Spaces and line breaks are trivia. Four
kinds are faults: no accepted text has a token of such a kind.
-/
namespace TermOutline

inductive TokenKind where
  | space
  | tab
  | line
  | term
  | size
  | decimal
  | code
  | comma
  | parenOpen
  | parenClose
  | textOpen
  | textCut
  | textClose
  | slotOpen
  | slotClose
  | badEscape
  | textBrace
  | unknown
  deriving DecidableEq, Repr

namespace TokenKind

def isTrivia : TokenKind → Bool
  | .space | .line => true
  | _ => false

def isFault : TokenKind → Bool
  | .tab | .badEscape | .textBrace | .unknown => true
  | _ => false

/-- Literal values, which take no children. -/
def isValue : TokenKind → Bool
  | .size | .decimal | .code => true
  | _ => false

def name : TokenKind → String
  | .space => "space"
  | .tab => "tab"
  | .line => "line"
  | .term => "term"
  | .size => "size"
  | .decimal => "decimal"
  | .code => "code"
  | .comma => "comma"
  | .parenOpen => "paren-open"
  | .parenClose => "paren-close"
  | .textOpen => "text-open"
  | .textCut => "text-cut"
  | .textClose => "text-close"
  | .slotOpen => "slot-open"
  | .slotClose => "slot-close"
  | .badEscape => "bad-escape"
  | .textBrace => "text-brace"
  | .unknown => "unknown"

end TokenKind

/-- A token: its kind, the characters it is written with, and the offset of the first. -/
structure Token where
  kind : TokenKind
  text : Source
  start : Nat
  deriving DecidableEq, Repr

namespace Token

def span (token : Token) : Span :=
  ⟨token.start, token.start + token.text.byteLength⟩

def isTrivia (token : Token) : Bool := token.kind.isTrivia

/-- The token as it stands in a text that has `offset` more bytes before it. -/
def shift (token : Token) (offset : Nat) : Token :=
  { token with start := token.start + offset }

end Token

end TermOutline
