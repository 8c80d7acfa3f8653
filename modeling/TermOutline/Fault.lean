import TermOutline.Diagnostic.Report

/-!
# Faults

Everything that can be wrong with a document, with the code and the note that a diagnostic carries
for it. The first ten are found in single tokens and are lexical; six concern the grouping of a
line, and five the way lines and items nest.
-/
namespace TermOutline

inductive CodeBase where
  | binary
  | octal
  | hexadecimal
  deriving DecidableEq, Repr

namespace CodeBase

def ofLetter? : Char → Option CodeBase
  | 'b' => some .binary
  | 'o' => some .octal
  | 'x' => some .hexadecimal
  | _ => none

def name : CodeBase → String
  | .binary => "binary"
  | .octal => "octal"
  | .hexadecimal => "hexadecimal"

def hasDigit : CodeBase → Char → Bool
  | .binary, c => c == '0' || c == '1'
  | .octal, c => '0' ≤ c && c ≤ '7'
  | .hexadecimal, c => c.isDigit || ('a' ≤ c && c ≤ 'f') || ('A' ≤ c && c ≤ 'F')

end CodeBase

inductive Fault where
  | unknownText (text : Source)
  | tab
  | openText
  | badEscape (escaped : Char)
  | textBrace
  | codeBaseMissing
  | codeBaseUnknown (base : Char)
  | codeDigit (digit : Char) (base : CodeBase)
  | codeEmpty (text : Source)
  | decimalFraction (text : Source)
  | oddIndent (width unit : Nat)
  | detachedParen
  | unmatchedParen
  | openParen
  | unmatchedBrace
  | strayComma
  | deepIndent (depth limit : Nat)
  | valueChildren (value : Source)
  | emptyCall
  | emptySlot
  | headComma (head : Source)
  deriving DecidableEq, Repr

namespace Fault

def category : Fault → Category
  | .unknownText _ | .tab | .openText | .badEscape _ | .textBrace | .codeBaseMissing
  | .codeBaseUnknown _ | .codeDigit _ _ | .codeEmpty _ | .decimalFraction _ => .lexical
  | _ => .structural

def code : Fault → String
  | .unknownText _ => "unknown_text"
  | .tab => "tab"
  | .openText => "open_text"
  | .badEscape _ => "bad_escape"
  | .textBrace => "text_brace"
  | .codeBaseMissing => "code_base"
  | .codeBaseUnknown _ => "code_base"
  | .codeDigit _ _ => "code_digit"
  | .codeEmpty _ => "code_empty"
  | .decimalFraction _ => "decimal_fraction"
  | .oddIndent _ _ => "odd_indent"
  | .detachedParen => "detached_paren"
  | .unmatchedParen => "unmatched_paren"
  | .openParen => "open_paren"
  | .unmatchedBrace => "unmatched_brace"
  | .strayComma => "stray_comma"
  | .deepIndent _ _ => "deep_indent"
  | .valueChildren _ => "value_children"
  | .emptyCall => "empty_call"
  | .emptySlot => "empty_slot"
  | .headComma _ => "head_comma"

/-- A stretch of source between backquotes. -/
def quote (text : Source) : String := "`" ++ String.ofList text ++ "`"

def note : Fault → String
  | .unknownText text => "unrecognized text " ++ quote text
  | .tab => "tab characters are not allowed"
  | .openText => "text is not closed"
  | .badEscape escaped => "unknown escape " ++ quote ['\\', escaped] ++ " in text"
  | .textBrace => "closing brace must be escaped inside text"
  | .codeBaseMissing => "code is missing its base"
  | .codeBaseUnknown base => "unknown code base " ++ quote [base]
  | .codeDigit digit base => "invalid digit " ++ quote [digit] ++ " in " ++ base.name ++ " code"
  | .codeEmpty text => "code " ++ quote text ++ " has no digits"
  | .decimalFraction text => "decimal " ++ quote text ++ " is missing digits after the point"
  | .oddIndent width unit => s!"indentation of {width} is not a multiple of {unit} spaces"
  | .detachedParen => "opening parenthesis must directly follow a term"
  | .unmatchedParen => "closing parenthesis has no matching opening parenthesis"
  | .openParen => "opening parenthesis is not closed"
  | .unmatchedBrace => "closing brace has no matching opening brace"
  | .strayComma => "unexpected comma"
  | .deepIndent depth limit =>
    s!"line is indented to depth {depth} but the deepest allowed here is {limit}"
  | .valueChildren value => "value " ++ quote value ++ " cannot have children"
  | .emptyCall => "parentheses cannot be empty"
  | .emptySlot => "interpolation cannot be empty"
  | .headComma head => "line head " ++ quote head ++ " cannot be followed by a comma"

end Fault

/-- A fault and the stretch of source that shows it. -/
structure Finding where
  fault : Fault
  span : Span
  deriving DecidableEq, Repr

namespace Finding

def diagnostic (finding : Finding) (file : String) : Diagnostic :=
  { category := finding.fault.category
    code := finding.fault.code
    note := finding.fault.note
    file := file
    span := finding.span
    placement := none }

/-- The finding in a text that has `offset` more bytes before it. -/
def shift (finding : Finding) (offset : Nat) : Finding :=
  { finding with span := finding.span.shift offset }

end Finding

/-- The report on a file of all findings, ordered by where they start; none without findings. -/
def Report.ofFindings? (file : String) (findings : List Finding) : Option Report :=
  (Collector.mk (findings.map fun finding => finding.diagnostic file)).finish

end TermOutline
