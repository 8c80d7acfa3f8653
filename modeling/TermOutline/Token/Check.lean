import TermOutline.Document
import TermOutline.Token.Scan

/-!
# Lexical faults

A document passes when none of its tokens is a fault or a malformed number, and no text is left
open. Adjacent unknown characters count as one fault.
-/
namespace TermOutline

/-- What is wrong with a code, which is a number sign, the letter of a base and digits of it. -/
def codeFault? (text : Source) : Option Fault :=
  match text.drop 1 with
  | [] => some .codeBaseMissing
  | letter :: digits =>
    match CodeBase.ofLetter? letter with
    | none => some (.codeBaseUnknown letter)
    | some base =>
      if digits.isEmpty then some (.codeEmpty text)
      else (digits.find? fun digit => !base.hasDigit digit).map (Fault.codeDigit · base)

namespace Token

def fault? (token : Token) : Option Fault :=
  match token.kind with
  | .unknown => some (.unknownText token.text)
  | .tab => some .tab
  | .textBrace => some .textBrace
  | .badEscape => token.text[1]?.map Fault.badEscape
  | .code => codeFault? token.text
  | .decimal => if token.text.getLast? = some '.' then some (.decimalFraction token.text) else none
  | _ => none

def finding? (token : Token) : Option Finding :=
  token.fault?.map fun fault => ⟨fault, token.span⟩

end Token

/-- Puts a token in front, as one with the first when both are unknown. -/
def joinUnknown (token : Token) : List Token → List Token
  | [] => [token]
  | next :: rest =>
    if token.kind = .unknown ∧ next.kind = .unknown then
      { token with text := token.text ++ next.text } :: rest
    else token :: next :: rest

/-- The faults of the tokens in order, then the texts left open. -/
def lexicalFindings (tokens : List Token) : List Finding :=
  (tokens.foldr joinUnknown []).filterMap Token.finding?
    ++ (unclosedTexts tokens).map fun span => ⟨.openText, span⟩

/-- The tokens of a document that has no lexical fault. -/
def Document.tokenize (document : Document) : Except Report (List Token) :=
  let tokens := document.text.tokens
  document.accept (lexicalFindings tokens) tokens

end TermOutline
