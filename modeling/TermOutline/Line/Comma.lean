import TermOutline.Line.Item

/-!
# Stray commas

A comma separates two items of a list. It is out of place at the start of a list, after another
comma and at the end. On a line the first item is the head and the list is what follows it. A comma
directly after the head is no stray comma: the faults of nesting have one of their own for it.
-/
namespace TermOutline

/-- Commas that follow a comma, or the start of the list when that counts as one. -/
def repeatedCommas (afterComma : Bool) : List Item → List Span
  | [] => []
  | item :: rest =>
    match item.comma? with
    | none => repeatedCommas false rest
    | some comma =>
      if afterComma then comma.span :: repeatedCommas true rest else repeatedCommas true rest

/-- A comma at the end that does not follow a comma. -/
def finalComma (items : List Item) : List Span :=
  match items.reverse with
  | last :: before :: _ =>
    match last.comma? with
    | some comma => if before.isComma then [] else [comma.span]
    | none => []
  | _ => []

def strayCommas (afterComma : Bool) (items : List Item) : List Span :=
  repeatedCommas afterComma items ++ finalComma items

/-- The stray commas of a line. A comma in the place of the head is one. -/
def lineStrayCommas : List Item → List Span
  | [] => []
  | head :: rest =>
    match head.comma? with
    | some comma => comma.span :: strayCommas true rest
    | none => strayCommas false rest

end TermOutline
