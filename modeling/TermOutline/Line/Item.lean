import TermOutline.Token.Basic

/-!
# Items

The tokens of a line group into items. An item is a single token, a call, which is a term with a
list of items in parentheses, or a text, whose pieces are cuts and slots; a slot holds a list of
items in braces. Lists keep their commas as items.
-/
namespace TermOutline

mutual

inductive Item where
  | token (token : Token)
  | call (head opening : Token) (items : List Item) (closing : Token)
  | text (opening : Token) (pieces : List Piece) (closing : Token)

inductive Piece where
  | cut (token : Token)
  | slot (opening : Token) (items : List Item) (closing : Token)

end

namespace Item

def span : Item → Span
  | .token t => t.span
  | .call head _ _ closing => head.span.cover closing.span
  | .text opening _ closing => opening.span.cover closing.span

/-- The comma, if the item is one. -/
def comma? : Item → Option Token
  | .token t => if t.kind = .comma then some t else none
  | _ => none

def isComma (item : Item) : Bool := item.comma?.isSome

/-- Values take no children. -/
def isValue : Item → Bool
  | .token t => t.kind.isValue
  | .call .. => false
  | .text .. => true

end Item

mutual

/-- The tokens an item is made of, in order. -/
def Item.tokens : Item → List Token
  | .token token => [token]
  | .call head opening items closing => head :: opening :: (itemTokens items ++ [closing])
  | .text opening pieces closing => opening :: (pieceTokens pieces ++ [closing])

def Piece.tokens : Piece → List Token
  | .cut token => [token]
  | .slot opening items closing => opening :: (itemTokens items ++ [closing])

def itemTokens : List Item → List Token
  | [] => []
  | item :: rest => item.tokens ++ itemTokens rest

def pieceTokens : List Piece → List Token
  | [] => []
  | piece :: rest => piece.tokens ++ pieceTokens rest

end

end TermOutline
