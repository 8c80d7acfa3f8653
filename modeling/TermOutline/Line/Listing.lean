import TermOutline.Diagnostic.Render
import TermOutline.Line.Basic

/-!
# Listings

A listing shows how lines were grouped: one row for each line, item and piece, indented by its
nesting, and quoted as it stands in the source.
-/
namespace TermOutline

def listingRow (level : Nat) (content : Source) : Source := blanks (2 * level) ++ content

def quoted (text : Source) : Source := '\x60' :: (text ++ ['\x60'])

mutual

def Item.listing (source : Source) (level : Nat) : Item → List Source
  | .token token => [listingRow level (token.kind.name.toList ++ [' '] ++ quoted token.text)]
  | .call head _ items _ =>
    listingRow level ("call ".toList ++ quoted head.text) :: listItems source (level + 1) items
  | .text opening pieces closing =>
    let span := opening.span.cover closing.span
    let text := (source.slice? span.start span.stop).getD []
    listingRow level ("text ".toList ++ quoted text) :: listPieces source (level + 1) pieces

def Piece.listing (source : Source) (level : Nat) : Piece → List Source
  | .cut token => [listingRow level ("cut ".toList ++ quoted token.text)]
  | .slot _ items _ => listingRow level "slot".toList :: listItems source (level + 1) items

def listItems (source : Source) (level : Nat) : List Item → List Source
  | [] => []
  | item :: rest => item.listing source level ++ listItems source level rest

def listPieces (source : Source) (level : Nat) : List Piece → List Source
  | [] => []
  | piece :: rest => piece.listing source level ++ listPieces source level rest

end

def Line.listing (source : Source) (number : Nat) (line : Line) : List Source :=
  ("line ".toList ++ digits number ++ " depth ".toList ++ digits line.depth)
    :: listItems source 1 line.items

/-- The listing of the lines of a text, each row ended by a line feed. -/
def listing (source : Source) (lines : List Line) : Source :=
  let rows := (lines.zipIdx 1).flatMap fun (line, number) => line.listing source number
  rows.flatMap (· ++ ['\n'])

end TermOutline
