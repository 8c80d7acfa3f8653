import TermOutline.Tree.Builder

/-!
# Replaying events

The events of the lines and the tokens of the document are brought together into a tree. Each token
event takes the next token that is not trivia, which has to be of the same kind. Trivia is put in as
late as possible: before the start of a node, before a token, and before the end of the root. So
every node begins and ends with a token that is not trivia.
-/
namespace TermOutline

/-- A branch that has started, with its children so far. -/
structure OpenBranch where
  branch : Branch
  children : Array Element

/-- The tokens still to come, the open branches with the innermost first, and the finished roots. -/
structure Sink where
  tokens : List Token
  branches : List OpenBranch
  roots : List Tree

namespace Sink

def initial (tokens : List Token) : Sink := ⟨tokens, [], []⟩

/-- Adds elements to the innermost branch. There is none before the root starts. -/
def append (sink : Sink) (elements : List Element) : Except Breach Sink :=
  match elements, sink.branches with
  | [], _ => .ok sink
  | _ :: _, [] => .error .branchesUnbalanced
  | _ :: _, top :: outer =>
    .ok { sink with branches := { top with children := top.children ++ elements } :: outer }

def eatTrivia (sink : Sink) : Except Breach Sink := do
  let fed ← sink.append ((sink.tokens.takeWhile Token.isTrivia).map Element.token)
  return { fed with tokens := sink.tokens.dropWhile Token.isTrivia }

def takeToken (sink : Sink) (kind : TokenKind) : Except Breach Sink :=
  match sink.tokens with
  | [] => .error .tokensMissing
  | next :: rest =>
    -- a debug assertion; without it the token is taken all the same, under the kind of the event
    if next.kind = kind then { sink with tokens := rest }.append [.token next]
    else .error .tokensOutOfStep

/-- Ends the innermost branch. Every other branch than the root lies in one. -/
def close (sink : Sink) : Except Breach Sink :=
  match sink.branches with
  | [⟨.root, children⟩] =>
    .ok { sink with branches := [], roots := sink.roots ++ [⟨children.toList⟩] }
  | ⟨.node kind, children⟩ :: top :: outer =>
    { sink with branches := top :: outer }.append [.node kind children.toList]
  | _ => .error .branchesUnbalanced

def step (sink : Sink) : Event → Except Breach Sink
  | .start branch => do
    let sink ← if sink.branches.isEmpty then pure sink else sink.eatTrivia
    return { sink with branches := ⟨branch, #[]⟩ :: sink.branches }
  | .token kind => do
    let sink ← sink.eatTrivia
    sink.takeToken kind
  | .finish => do
    let sink ← if sink.branches.length = 1 then sink.eatTrivia else pure sink
    sink.close
  | .placeholder => .error .placeholderLeft

/-- At the end no token may be left, and there is one root. -/
def finish (sink : Sink) : Except Breach Tree :=
  match sink.tokens, sink.branches, sink.roots with
  | [], [], [tree] => .ok tree
  | _ :: _, _, _ => .error .tokensLeft
  | [], _, _ => .error .branchesUnbalanced

/-- The tree that events make of the tokens. -/
def replay (events : Array Event) (tokens : List Token) : Except Breach Tree := do
  let sink ← events.toList.foldlM step (initial tokens)
  sink.finish

end Sink

end TermOutline
