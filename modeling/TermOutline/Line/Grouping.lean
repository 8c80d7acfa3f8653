import TermOutline.Document
import TermOutline.Line.Comma

/-!
# Grouping

The tokens of one line are read from left to right while calls, texts and slots open and close. A
closing parenthesis closes a call only when the call is innermost. A closing brace closes the
innermost slot even when calls are still open inside it, and those calls are reported. A parenthesis
that does not follow a term is reported, and what it holds goes into the list around it.
-/
namespace TermOutline

/-- A group that has been opened, with what it holds so far. -/
inductive OpenGroup where
  | call (head : Option Token) (opening : Token) (items : List Item)
  | text (opening : Token) (pieces : List Piece)
  | slot (opening : Token) (items : List Item)

namespace OpenGroup

def isCall : OpenGroup → Bool
  | .call .. => true
  | _ => false

def isSlot : OpenGroup → Bool
  | .slot .. => true
  | _ => false

/-- The finding on a call that nothing closes. -/
def unclosed? : OpenGroup → Option Finding
  | .call _ opening _ => some ⟨.openParen, opening.span⟩
  | _ => none

end OpenGroup

/-- The items of the line so far, the open groups with the innermost first, and what was found. -/
structure Grouping where
  items : List Item
  groups : List OpenGroup
  findings : List Finding

namespace Grouping

def initial : Grouping := ⟨[], [], []⟩

def report (grouping : Grouping) (fault : Fault) (span : Span) : Grouping :=
  { grouping with findings := grouping.findings ++ [⟨fault, span⟩] }

def reportCommas (grouping : Grouping) (spans : List Span) : Grouping :=
  { grouping with findings := grouping.findings ++ spans.map fun span => ⟨.strayComma, span⟩ }

def openGroup (grouping : Grouping) (group : OpenGroup) : Grouping :=
  { grouping with groups := group :: grouping.groups }

/-- The innermost list. A text has pieces and no list. -/
def innermost (grouping : Grouping) : Except Breach (List Item) :=
  match grouping.groups with
  | [] => .ok grouping.items
  | .call _ _ held :: _ => .ok held
  | .slot _ held :: _ => .ok held
  | .text .. :: _ => .error .codeInsideText

def setInnermost (grouping : Grouping) (held : List Item) : Grouping :=
  match grouping.groups with
  | [] => { grouping with items := held }
  | .call head opening _ :: outer => { grouping with groups := .call head opening held :: outer }
  | .slot opening _ :: outer => { grouping with groups := .slot opening held :: outer }
  | .text .. :: _ => grouping

/-- Adds items to the innermost list. -/
def place (grouping : Grouping) (items : List Item) : Except Breach Grouping := do
  let held ← grouping.innermost
  return grouping.setInnermost (held ++ items)

/-- Opens a call. Its head is the term that was last added to the innermost list. -/
def openCall (grouping : Grouping) (opening : Token) : Except Breach Grouping := do
  let held ← grouping.innermost
  match held.getLast? with
  | some (.token head) =>
    if head.kind = .term then
      return (grouping.setInnermost held.dropLast).openGroup (.call (some head) opening [])
    else throw .termDisplaced
  | _ => throw .termDisplaced

def closeParen (grouping : Grouping) (closing : Token) : Except Breach Grouping :=
  match grouping.groups with
  | .call head opening held :: outer =>
    let closed := { grouping with groups := outer }.reportCommas (strayCommas true held)
    match head with
    | some head => closed.place [.call head opening held closing]
    | none => closed.place held
  | _ => .ok (grouping.report .unmatchedParen closing.span)

/-- How many calls are open inside the innermost slot, if no text is open inside it. -/
def callsInSlot? (groups : List OpenGroup) : Option Nat :=
  let calls := (groups.takeWhile OpenGroup.isCall).length
  if (groups[calls]?).any OpenGroup.isSlot then some calls else none

def closeSlot (grouping : Grouping) (closing : Token) : Except Breach Grouping :=
  match callsInSlot? grouping.groups with
  | none => .ok (grouping.report .unmatchedBrace closing.span)
  | some calls =>
    let unclosed := (grouping.groups.take calls).reverse.filterMap OpenGroup.unclosed?
    match grouping.groups.drop calls with
    | .slot opening held :: .text textOpening pieces :: outer =>
      let text := OpenGroup.text textOpening (pieces ++ [.slot opening held closing])
      .ok ({ grouping with
        groups := text :: outer
        findings := grouping.findings ++ unclosed }.reportCommas (strayCommas true held))
    | .slot .. :: _ => .error .slotUnattached
    | _ => .error .slotVanished

def openSlot (grouping : Grouping) (opening : Token) : Except Breach Grouping :=
  match grouping.groups with
  | .text .. :: _ => .ok (grouping.openGroup (.slot opening []))
  | _ => .error .slotOutsideText

def addCut (grouping : Grouping) (cut : Token) : Except Breach Grouping :=
  match grouping.groups with
  | .text opening pieces :: outer =>
    .ok { grouping with groups := .text opening (pieces ++ [.cut cut]) :: outer }
  | _ => .error .cutOutsideText

def closeText (grouping : Grouping) (closing : Token) : Except Breach Grouping :=
  match grouping.groups with
  | .text opening pieces :: outer =>
    { grouping with groups := outer }.place [.text opening pieces closing]
  | _ => .error .closeOutsideText

/-- Reads one token. A parenthesis opens a call when the token directly before it is a term. -/
def step (previous : Option Token) (grouping : Grouping) (token : Token) : Except Breach Grouping :=
  match token.kind with
  | .space | .line => .ok grouping
  | .term | .size | .decimal | .code | .comma => grouping.place [.token token]
  | .parenOpen =>
    if previous.any fun before => before.kind = .term then grouping.openCall token
    else .ok ((grouping.report .detachedParen token.span).openGroup (.call none token []))
  | .parenClose => grouping.closeParen token
  | .textOpen => .ok (grouping.openGroup (.text token []))
  | .textCut => grouping.addCut token
  | .textClose => grouping.closeText token
  | .slotOpen => grouping.openSlot token
  | .slotClose => grouping.closeSlot token
  | .tab | .badEscape | .textBrace | .unknown => .error (.faultToken token.kind)

/-- Reads tokens in order, `previous` being the token before the first of them. -/
def read (previous : Option Token) (grouping : Grouping) : List Token → Except Breach Grouping
  | [] => .ok grouping
  | token :: rest => do
    let next ← step previous grouping token
    read (some token) next rest

/-- At the end of a line the calls still open are reported, and nothing else may be open. -/
def finish (grouping : Grouping) : Except Breach Grouping :=
  if grouping.groups.all OpenGroup.isCall then
    .ok { grouping with
      findings := grouping.findings ++ grouping.groups.reverse.filterMap OpenGroup.unclosed? }
  else .error .textLeftOpen

/-- The items of a line's tokens, and what was found while grouping them. -/
def ofTokens (tokens : List Token) : Except Breach Grouping := do
  let grouping ← initial.read none tokens
  grouping.finish

end Grouping

end TermOutline
