import TermOutline.Diagnostic.Report

/-!
# Printed diagnostics

A placed diagnostic is printed as a header, the place, and the line with the stretch underlined.
One that has no placement shows its span in place of the line. Colour wraps parts of the print in
terminal codes and changes nothing else.
-/
namespace TermOutline

inductive Style where
  | plain
  | color
  deriving DecidableEq, Repr

/-- The painted parts of a print. -/
inductive Role where
  | header
  | gutter
  | caret
  deriving DecidableEq, Repr

/-- A terminal code: the escape character, an opening bracket, a number and the letter `m`. -/
def terminalCode (number : String) : Source :=
  '\x1b' :: '[' :: (number.toList ++ ['m'])

namespace Role

def before : Role → Source
  | .header => terminalCode "1" ++ terminalCode "31"
  | .gutter => terminalCode "1" ++ terminalCode "34"
  | .caret => terminalCode "31"

def after : Role → Source
  | .header | .gutter => terminalCode "39" ++ terminalCode "0"
  | .caret => terminalCode "39"

end Role

def Style.paint (style : Style) (role : Role) (text : Source) : Source :=
  match style with
  | .plain => text
  | .color => role.before ++ text ++ role.after

def blanks (count : Nat) : Source := List.replicate count ' '

/-- A number in decimal digits. -/
def digits (number : Nat) : Source := Nat.toDigits 10 number

namespace Placement

/-- The place, the line and the underline, with the gutter as wide as the line number. -/
def render (placement : Placement) (file : String) (style : Style) : List Source :=
  let number := digits placement.line
  let pad := blanks number.length
  let bar := style.paint .gutter ['|']
  let quoted := if placement.lineText.isEmpty then [] else ' ' :: placement.lineText
  [ pad ++ style.paint .gutter "-->".toList ++ [' '] ++ file.toList
      ++ [':'] ++ number ++ [':'] ++ digits placement.column,
    pad ++ [' '] ++ bar,
    style.paint .gutter number ++ [' '] ++ bar ++ quoted,
    pad ++ [' '] ++ bar ++ [' '] ++ blanks (placement.column - 1)
      ++ style.paint .caret (List.replicate placement.width '^') ]

end Placement

def Span.render (span : Span) (file : String) (style : Style) : Source :=
  [' '] ++ style.paint .gutter "-->".toList ++ [' '] ++ file.toList
    ++ ['@'] ++ digits span.start ++ ['.', '.'] ++ digits span.stop

/-- The header names a code in brackets. -/
def renderHeader (code : String) (style : Style) : Source :=
  style.paint .header ("kink[".toList ++ code.toList ++ "]:".toList)

namespace Diagnostic

def render (diagnostic : Diagnostic) (style : Style) : Source :=
  let header := renderHeader diagnostic.code style ++ [' '] ++ diagnostic.note.toList
  let body := match diagnostic.placement with
    | some placement => placement.render diagnostic.file style
    | none => [diagnostic.span.render diagnostic.file style]
  ['\n'].intercalate (header :: body)

end Diagnostic

namespace Report

/-- A single diagnostic is printed alone; more than one follow a count, with blank lines between. -/
def render (report : Report) (style : Style) : Source :=
  match report.others with
  | [] => report.first.render style
  | _ =>
    let header := renderHeader "list" style ++ [' '] ++ report.summary.toList
    ['\n', '\n'].intercalate (header :: report.toList.map fun diagnostic => diagnostic.render style)

end Report

end TermOutline
