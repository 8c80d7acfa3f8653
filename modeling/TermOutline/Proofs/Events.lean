import TermOutline.Proofs.Losslessness

/-! # The events of a tree

Whatever lines the builder is given, the events it leaves write down one tree. Every place that was
kept for a start has got it, also the places of lines that were completed long after others came
behind them. The root starts first, something is open until the last event, and that one finishes
the root. The tokens come in the order in which the lines have them.
-/
namespace TermOutline

namespace Event

def isStart : Event → Bool
  | .start _ => true
  | _ => false

def tokenKind? : Event → Option TokenKind
  | .token kind => some kind
  | _ => none

/-- How many branches the events start. -/
def starts (events : List Event) : Nat := events.countP isStart

/-- How many branches the events finish. -/
def finishes (events : List Event) : Nat := events.count .finish

/-- Events that write down one tree. Between the first of them and the last, at least one branch has
started that is not finished; before the last it is the root alone. -/
structure WriteTree (events : List Event) : Prop where
  filled : .placeholder ∉ events
  first : events.head? = some (.start .root)
  single : .start .root ∉ events.tail
  balanced : starts events = finishes events
  inside : ∀ front back, events = front ++ back → front ≠ [] → back ≠ [] →
    finishes front + 1 ≤ starts front
  last : ∃ front, events = front ++ [.finish] ∧ starts front = finishes front + 1

theorem starts_append (front back : List Event) :
    starts (front ++ back) = starts front + starts back := List.countP_append

theorem finishes_append (front back : List Event) :
    finishes (front ++ back) = finishes front + finishes back := List.count_append

theorem starts_cons (branch : Branch) (events : List Event) :
    starts (.start branch :: events) = starts events + 1 := List.countP_cons_of_pos rfl

theorem finishes_cons (branch : Branch) (events : List Event) :
    finishes (.start branch :: events) = finishes events := List.count_cons_of_ne (by simp)

theorem tokens_around (branch : Branch) (events : List Event) :
    (.start branch :: (events ++ [.finish])).filterMap tokenKind? =
      events.filterMap tokenKind? := by
  have bare : [Event.finish].filterMap tokenKind? = [] := rfl
  rw [List.filterMap_cons_none rfl, List.filterMap_append, bare, List.append_nil]

/-! ## Levels -/

/-- Events that finish what they start, and nothing that was started before them. -/
structure Level (events : List Event) : Prop where
  balanced : starts events = finishes events
  inside : ∀ front back, events = front ++ back → finishes front ≤ starts front

theorem Level.nil : Level [] := by
  constructor
  · rfl
  · intro front back split
    obtain ⟨rfl, _⟩ := List.append_eq_nil_iff.1 split.symm
    exact Nat.le_refl _

theorem Level.token (kind : TokenKind) : Level [.token kind] := by
  constructor
  · rfl
  · intro front back split
    rcases List.singleton_eq_append_iff.1 split with ⟨rfl, _⟩ | ⟨rfl, _⟩
    · exact Nat.le_refl _
    · exact Nat.le_refl _

theorem Level.append {front back : List Event} (hf : Level front) (hb : Level back) :
    Level (front ++ back) := by
  have first := hf.balanced
  have second := hb.balanced
  constructor
  · rw [starts_append, finishes_append]
    omega
  · intro taken left split
    rcases List.append_eq_append_iff.1 split with ⟨more, rfl, within⟩ | ⟨more, rfl, _⟩
    · have later := hb.inside more left within
      rw [starts_append, finishes_append]
      omega
    · exact hf.inside taken more rfl

theorem Level.around {events : List Event} (h : Level events) (branch : Branch)
    {front back : List Event} (split : .start branch :: (events ++ [.finish]) = front ++ back)
    (begun : front ≠ []) (ahead : back ≠ []) : finishes front + 1 ≤ starts front := by
  rcases List.cons_eq_append_iff.1 split with ⟨rfl, _⟩ | ⟨taken, rfl, rest⟩
  · exact absurd rfl begun
  rw [starts_cons, finishes_cons]
  apply Nat.succ_le_succ
  rcases List.append_eq_append_iff.1 rest with ⟨more, rfl, final⟩ | ⟨more, rfl, _⟩
  · -- Behind the events there is the finish alone, and that is still to come.
    rcases List.singleton_eq_append_iff.1 final with ⟨rfl, _⟩ | ⟨_, rfl⟩
    · rw [List.append_nil]
      exact Nat.le_of_eq h.balanced.symm
    · exact absurd rfl ahead
  · exact h.inside taken more rfl

theorem Level.enclosed {events : List Event} (h : Level events) (branch : Branch) :
    Level (.start branch :: (events ++ [.finish])) := by
  have balanced : starts (.start branch :: (events ++ [.finish])) =
      finishes (.start branch :: (events ++ [.finish])) := by
    rw [starts_cons, finishes_cons, starts_append, finishes_append, h.balanced]
    rfl
  constructor
  · exact balanced
  · intro front back split
    by_cases begun : front = []
    · rw [begun]
      exact Nat.le_refl _
    by_cases done : back = []
    · rw [done, List.append_nil] at split
      rw [← split]
      exact Nat.le_of_eq balanced.symm
    · exact Nat.le_of_succ_le (h.around branch split begun done)

/-- A root around events that start no root and keep no place writes down one tree. -/
theorem Level.writeTree {events : List Event} (h : Level events)
    (clean : ∀ event ∈ events, event ≠ .placeholder ∧ event ≠ .start .root) :
    WriteTree (.start .root :: (events ++ [.finish])) := by
  constructor
  case filled =>
    intro kept
    rcases List.mem_cons.1 kept with impossible | kept
    · cases impossible
    rcases List.mem_append.1 kept with inner | final
    · exact (clean _ inner).1 rfl
    · cases List.mem_singleton.1 final
  case first => rfl
  case single =>
    intro again
    rcases List.mem_append.1 again with inner | final
    · exact (clean _ inner).2 rfl
    · cases List.mem_singleton.1 final
  case balanced => exact (h.enclosed .root).balanced
  case inside =>
    intro front back split begun ahead
    exact h.around .root split begun ahead
  case last =>
    refine ⟨.start .root :: events, rfl, ?_⟩
    rw [starts_cons, finishes_cons, h.balanced]

end Event

/-! ## Elements -/

mutual

theorem Element.events_level : ∀ (element : Element), Event.Level element.events
  | .token token => .token token.kind
  | .node kind children => (elementEvents_level children).enclosed (.node kind)

theorem elementEvents_level : ∀ (elements : List Element), Event.Level (elementEvents elements)
  | [] => .nil
  | element :: rest => element.events_level.append (elementEvents_level rest)

end

mutual

theorem Element.events_clean : ∀ (element : Element), ∀ event ∈ element.events,
    event ≠ .placeholder ∧ event ≠ .start .root
  | .token token, event, member => by
    rw [List.mem_singleton.1 member]
    exact ⟨nofun, nofun⟩
  | .node kind children, event, member => by
    rcases List.mem_cons.1 member with rfl | member
    · exact ⟨nofun, nofun⟩
    rcases List.mem_append.1 member with inner | final
    · exact elementEvents_clean children event inner
    · rw [List.mem_singleton.1 final]
      exact ⟨nofun, nofun⟩

theorem elementEvents_clean : ∀ (elements : List Element), ∀ event ∈ elementEvents elements,
    event ≠ .placeholder ∧ event ≠ .start .root
  | [], _, member => by cases member
  | element :: rest, event, member => by
    rcases List.mem_append.1 member with first | others
    · exact element.events_clean event first
    · exact elementEvents_clean rest event others

end

mutual

theorem Element.events_tokens : ∀ (element : Element),
    element.events.filterMap Event.tokenKind? = element.tokens.map Token.kind
  | .token _ => rfl
  | .node _ children => (Event.tokens_around _ _).trans (elementEvents_tokens children)

theorem elementEvents_tokens : ∀ (elements : List Element),
    (elementEvents elements).filterMap Event.tokenKind? = (elementTokens elements).map Token.kind
  | [] => rfl
  | element :: rest => by
    have first := element.events_tokens
    have others := elementEvents_tokens rest
    rw [elementEvents, List.filterMap_append, first, others, elementTokens_cons, List.map_append]

end

/-! ## Lines -/

/-- The builder writes down one tree, with the tokens of the lines in order, whatever the depths of
the lines are and wherever commas stand in them. -/
theorem build_writes_tree (settings : Settings) {lines : List Line}
    (kinded : ∀ line ∈ lines, line.Kinded) :
    ∃ events, Builder.build settings.maxDepth lines = .ok events ∧
      Event.WriteTree events.toList ∧
      events.toList.filterMap Event.tokenKind? = (lineTokens lines).map Token.kind := by
  let elements := nestLines (clampDepths settings.maxDepth 0 lines)
  have held : elementTokens elements = lineTokens lines :=
    elementTokens_clamped settings.maxDepth lines
  refine ⟨_, Builder.build_eq settings.maxDepth kinded, ?_, ?_⟩
  · exact (elementEvents_level elements).writeTree (elementEvents_clean elements)
  · rw [← held, ← elementEvents_tokens elements]
    exact Event.tokens_around .root (elementEvents elements)

/-- Two lines that are deeper than they may be, with commas where none belong and a slot that holds
nothing. -/
theorem build_writes_tree_deep :
    ∃ lines : List Line, lines =
        [⟨3, .emptyAt 0, ⟨0, 7⟩, [.token ⟨.comma, [','], 0⟩,
          .call ⟨.term, ['f'], 1⟩ ⟨.parenOpen, ['('], 2⟩
            [.token ⟨.comma, [','], 3⟩, .token ⟨.size, ['1'], 4⟩] ⟨.parenClose, [')'], 5⟩,
          .token ⟨.comma, [','], 6⟩]⟩,
        ⟨9, .emptyAt 8, ⟨8, 12⟩, [.text ⟨.textOpen, ['<'], 8⟩
          [.slot ⟨.slotOpen, ['\x7b'], 9⟩ [] ⟨.slotClose, ['\x7d'], 10⟩]
          ⟨.textClose, ['>'], 11⟩]⟩] ∧
      (∀ line ∈ lines, line.Kinded) ∧
      ∃ events, Builder.build 64 lines = .ok events ∧ Event.WriteTree events.toList ∧
        events.toList.filterMap Event.tokenKind? =
          [.comma, .term, .parenOpen, .comma, .size, .parenClose, .comma, .textOpen, .slotOpen,
            .slotClose, .textClose] := by
  refine ⟨_, rfl, ?kinded, build_writes_tree .default ?kinded⟩
  simp [Line.Kinded, itemsKinded, Item.Kinded, piecesKinded, Piece.Kinded]

end TermOutline
