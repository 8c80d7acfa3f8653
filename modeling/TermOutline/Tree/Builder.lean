import TermOutline.Line.Basic
import TermOutline.Tree.Basic

/-!
# Building events

Items and lines are written down as one flat list of events: the start of a branch, a token, the
end of the branch that started last. A list is divided by its commas into chains, and each item of a
chain is a nest that holds the rest of the chain: the items of `a b, c` are a nest of `a` that holds
`b`, a comma, and a nest of `c`. A line is a nest of its first item that holds the list of the
others and then the deeper lines below it, so it stays open until a line comes that is not deeper.

A branch is opened by putting a placeholder among the events. Completing it puts the start in that
place and the end behind the last event.
-/
namespace TermOutline

/-- What an event can start: the root or a node. -/
inductive Branch where
  | root
  | node (kind : NodeKind)
  deriving DecidableEq, Repr

inductive Event where
  | start (branch : Branch)
  | token (kind : TokenKind)
  | finish
  | placeholder
  deriving DecidableEq, Repr

/-- The place of a placeholder. -/
structure Marker where
  place : Nat
  deriving DecidableEq, Repr

/-- The events so far, and the lines whose nests are still open, the innermost first. -/
structure Builder where
  events : Array Event
  lines : List Marker
  deriving DecidableEq, Repr

namespace Builder

def empty : Builder := ⟨#[], []⟩

def push (builder : Builder) (event : Event) : Builder :=
  { builder with events := builder.events.push event }

def token (builder : Builder) (kind : TokenKind) : Builder := builder.push (.token kind)

/-- The marker that the next placeholder gets. -/
def marker (builder : Builder) : Marker := ⟨builder.events.size⟩

def start (builder : Builder) : Builder := builder.push .placeholder

def complete (builder : Builder) (marker : Marker) (branch : Branch) : Except Breach Builder :=
  match builder.events[marker.place]? with
  | some .placeholder =>
    .ok { builder with
      events := (builder.events.setIfInBounds marker.place (.start branch)).push .finish }
  | _ => .error .markerMisplaced

/-- Completes nests, the first of the markers first. -/
def completeNests (builder : Builder) (markers : List Marker) : Except Breach Builder :=
  markers.foldlM (fun builder marker => builder.complete marker (.node .nest)) builder

mutual

def addItem (builder : Builder) : Item → Except Breach Builder
  | .token token => .ok (builder.token token.kind)
  | .call _ _ items _ => do
    let builder ← addList ((builder.token .term).token .parenOpen) [] items
    return builder.token .parenClose
  | .text _ pieces _ => do
    let marker := builder.marker
    let builder ← addPieces (builder.start.token .textOpen) pieces
    (builder.token .textClose).complete marker (.node .text)

def addPiece (builder : Builder) : Piece → Except Breach Builder
  | .cut _ => .ok (builder.token .textCut)
  | .slot _ items _ => do
    let marker := builder.marker
    let builder ← addList (builder.start.token .slotOpen) [] items
    (builder.token .slotClose).complete marker (.node .slot)

def addPieces (builder : Builder) : List Piece → Except Breach Builder
  | [] => .ok builder
  | piece :: rest => do
    let builder ← addPiece builder piece
    addPieces builder rest

/-- Adds a list when the items of its current chain have opened the nests of `chain`, the innermost
first. A comma and the end of the list complete them. -/
def addList (builder : Builder) (chain : List Marker) : List Item → Except Breach Builder
  | [] => builder.completeNests chain
  | item :: rest =>
    if item.isComma then do
      let builder ← builder.completeNests chain
      addList (builder.token .comma) [] rest
    else do
      let marker := builder.marker
      let builder ← addItem builder.start item
      addList builder (marker :: chain) rest

end

/-- Completes the innermost lines until only `depth` are open. -/
def closeLines (builder : Builder) (depth : Nat) : Except Breach Builder := do
  let excess := builder.lines.length - depth
  let closed ← builder.completeNests (builder.lines.take excess)
  return { closed with lines := builder.lines.drop excess }

/-- Adds a line below the open line it is a child of. A line that is too deep for its place is
taken to be as deep as it may be. -/
def addLine (maxDepth : Nat) (builder : Builder) (line : Line) : Except Breach Builder := do
  let builder ← builder.closeLines (min line.depth (min builder.lines.length maxDepth))
  match line.items with
  | [] => throw .headlessLine
  | head :: rest =>
    let marker := builder.marker
    let builder ← builder.start.addItem head
    let builder ← builder.addList [] rest
    return { builder with lines := marker :: builder.lines }

/-- The events of a document's lines. -/
def build (maxDepth : Nat) (lines : List Line) : Except Breach (Array Event) := do
  let root := empty.marker
  let builder ← lines.foldlM (addLine maxDepth) empty.start
  let builder ← builder.closeLines 0
  let builder ← builder.complete root .root
  return builder.events

end Builder

end TermOutline
