import TermOutline.Proofs.Partition
import TermOutline.Proofs.Stages

/-! # Nothing is lost

The tree stage is handed lines and all the tokens of the document. Whatever depths the lines are
given, a tree that comes out of it holds every token, in order. When lines are missing there is no
tree: the events of the others run out of step with the tokens, or come to an end before them.
-/
namespace TermOutline

/-- The lines with the depth given for the number of each. Lines that are given none are left out.
-/
def regrade (depths : Nat → Option Nat) : List Line → List Line
  | [] => []
  | line :: rest =>
    let others := regrade (fun number => depths (number + 1)) rest
    match depths 0 with
    | some depth => { line with depth := depth } :: others
    | none => others

/-- The tokens of lines, in order. -/
def lineTokens (lines : List Line) : List Token := lines.flatMap fun line => itemTokens line.items

mutual

/-- Events tell the kinds of tokens only, so elements of other tokens can have the same. -/
theorem Element.relabel : ∀ (element : Element) {tokens : List Token},
    tokens.map Token.kind = element.tokens.map Token.kind →
      ∃ other : Element, other.events = element.events ∧ other.tokens = tokens
  | .token t, tokens, h => by
    obtain ⟨token, kind, rfl⟩ : ∃ token : Token, token.kind = t.kind ∧ tokens = [token] := by
      cases tokens with
      | nil => cases h
      | cons token rest =>
        obtain ⟨kind, none⟩ := List.cons.inj h
        exact ⟨token, kind, by rw [List.map_eq_nil_iff.1 none]⟩
    exact ⟨.token token, by rw [Element.events, Element.events, kind], rfl⟩
  | .node kind children, tokens, h => by
    obtain ⟨others, events, rfl⟩ := elements_relabel children h
    exact ⟨.node kind others, by rw [Element.events, Element.events, events], rfl⟩

theorem elements_relabel : ∀ (elements : List Element) {tokens : List Token},
    tokens.map Token.kind = (elementTokens elements).map Token.kind →
      ∃ others, elementEvents others = elementEvents elements ∧ elementTokens others = tokens
  | [], tokens, h => by
    refine ⟨[], rfl, ?_⟩
    rw [List.map_eq_nil_iff.1 h]
    rfl
  | element :: rest, tokens, h => by
    rw [elementTokens_cons, List.map_append] at h
    obtain ⟨front, back, rfl, hf, hb⟩ := List.map_eq_append_iff.1 h
    obtain ⟨first, events, rfl⟩ := element.relabel hf
    obtain ⟨others, more, rfl⟩ := elements_relabel rest hb
    exact ⟨first :: others, by rw [elementEvents, elementEvents, events, more],
      elementTokens_cons _ _⟩

end

namespace Sink

theorem step_token_other {lead rest : List Token} {token : Token} {kind : TokenKind}
    (hl : content lead = []) (ht : token.isTrivia = false) (ne : token.kind ≠ kind)
    (top : OpenBranch) (outer : List OpenBranch) (roots : List Tree) :
    step ⟨lead ++ token :: rest, top :: outer, roots⟩ (.token kind) = .error .tokensOutOfStep := by
  obtain ⟨taken, left⟩ := lead_takeWhile hl ht rest
  simp only [step, eatTrivia_eq, left, bind, Except.bind, takeToken, ne, if_false]

theorem error_bind {α β : Type} (breach : Breach) (f : α → Except Breach β) :
    (Except.error breach >>= f) = Except.error breach := rfl

theorem split_of_kinds {kinds : List TokenKind} {tokens : List Token}
    (h : kinds <+: tokens.map Token.kind) :
    ∃ taken more, tokens = taken ++ more ∧ taken.map Token.kind = kinds := by
  obtain ⟨others, split⟩ := h
  obtain ⟨taken, more, whole, same, _⟩ := List.map_eq_append_iff.1 split.symm
  exact ⟨taken, more, whole, same⟩

theorem isTrivia_of_content {token : Token} {tokens : List Token} (h : token ∈ content tokens) :
    token.isTrivia = false := by
  simpa using (List.mem_filter.1 h).2

mutual

theorem element_outOfStep : ∀ (element : Element) {tokens : List Token},
    element.tokens.length ≤ (content tokens).length →
    ¬element.tokens.map Token.kind <+: (content tokens).map Token.kind → ∀ top outer roots,
      element.events.foldlM step ⟨tokens, top :: outer, roots⟩ = .error .tokensOutOfStep
  | .token t, tokens, size, differ, top, outer, roots => by
    obtain ⟨next, more, hc⟩ := List.exists_cons_of_ne_nil (List.ne_nil_of_length_pos size)
    have ne : next.kind ≠ t.kind := by
      rintro same
      apply differ
      rw [hc, List.map_cons, same]
      exact ⟨more.map Token.kind, rfl⟩
    have significant := isTrivia_of_content (hc ▸ List.mem_cons_self : next ∈ content tokens)
    obtain ⟨lead, rest, rfl, hl, _⟩ := content_cons hc
    rw [Element.events, List.foldlM_cons, step_token_other hl significant ne, error_bind]
  | .node kind children, tokens, size, differ, top, outer, roots => by
    have left := content_dropWhile tokens
    rw [← left] at size differ
    rw [Element.events, List.foldlM_cons, step_start, ok_bind, List.foldlM_append,
      elements_outOfStep children size differ, error_bind]

theorem elements_outOfStep : ∀ (elements : List Element) {tokens : List Token},
    (elementTokens elements).length ≤ (content tokens).length →
    ¬(elementTokens elements).map Token.kind <+: (content tokens).map Token.kind →
      ∀ top outer roots,
        (elementEvents elements).foldlM step ⟨tokens, top :: outer, roots⟩ =
          .error .tokensOutOfStep
  | [], tokens, size, differ, top, outer, roots => absurd (List.nil_prefix) differ
  | element :: rest, tokens, size, differ, top, outer, roots => by
    rw [elementTokens_cons, List.length_append] at size
    rw [elementTokens_cons, List.map_append] at differ
    rw [elementEvents, List.foldlM_append]
    by_cases same : element.tokens.map Token.kind <+: (content tokens).map Token.kind
    · -- the first element takes its tokens, so the others are out of step with what is left
      obtain ⟨taken, more, hc, kinds⟩ := split_of_kinds same
      obtain ⟨other, events, rfl⟩ := element.relabel kinds
      obtain ⟨lead, padded, left, _, _, _, hl, run⟩ := replay_element other hc
      rw [← kinds, hc, List.map_append, List.prefix_append_right_inj, ← hl] at differ
      have count := congrArg List.length kinds
      rw [List.length_map, List.length_map] at count
      rw [hc, List.length_append, ← hl] at size
      rw [← events, run, ok_bind]
      exact elements_outOfStep rest (by omega) differ _ _ _
    · rw [element_outOfStep element (by omega) same, error_bind]

end

theorem replay_left {elements : List Element} {tokens more : List Token}
    (h : content tokens = elementTokens elements ++ more) (ne : more ≠ []) :
    replay (.start .root :: (elementEvents elements ++ [.finish])).toArray tokens =
      .error .tokensLeft := by
  obtain ⟨padded, left, _, _, hl, run⟩ := replay_elements elements h
  obtain ⟨token, rest, hd⟩ : ∃ token rest, left.dropWhile Token.isTrivia = token :: rest := by
    apply List.exists_cons_of_ne_nil
    intro none
    apply ne
    rw [← hl, ← content_dropWhile, none]
    rfl
  have start : step (initial tokens) (.start .root) = .ok ⟨tokens, [⟨.root, #[]⟩], []⟩ := rfl
  have last : ∃ roots, step ⟨left, [OpenBranch.adding ⟨.root, #[]⟩ padded], []⟩ .finish =
      .ok ⟨token :: rest, [], roots⟩ := by
    simp only [step, List.length_cons, List.length_nil, Nat.zero_add, if_true, eatTrivia_eq, hd]
    exact ⟨_, rfl⟩
  obtain ⟨roots, last⟩ := last
  rw [replay, List.foldlM_cons, start, ok_bind, List.foldlM_append, run, ok_bind, List.foldlM_cons,
    last]
  rfl

theorem replay_outOfStep {elements : List Element} {tokens : List Token}
    (size : (elementTokens elements).length ≤ (content tokens).length)
    (differ : ¬(elementTokens elements).map Token.kind <+: (content tokens).map Token.kind) :
    replay (.start .root :: (elementEvents elements ++ [.finish])).toArray tokens =
      .error .tokensOutOfStep := by
  have start : step (initial tokens) (.start .root) = .ok ⟨tokens, [⟨.root, #[]⟩], []⟩ := rfl
  rw [replay, List.foldlM_cons, start, ok_bind, List.foldlM_append,
    elements_outOfStep elements size differ, error_bind, error_bind]

/-- Fewer tokens in the events than in the text that say something never make a tree. -/
theorem replay_short {elements : List Element} {tokens : List Token}
    (size : (elementTokens elements).length < (content tokens).length) :
    replay (.start .root :: (elementEvents elements ++ [.finish])).toArray tokens =
      .error (if (elementTokens elements).map Token.kind <+: (content tokens).map Token.kind
        then .tokensLeft else .tokensOutOfStep) := by
  split
  · next same =>
    -- elements of the first tokens have the same events, and stop before the tokens do
    obtain ⟨taken, more, hc, kinds⟩ := split_of_kinds same
    obtain ⟨others, events, rfl⟩ := elements_relabel elements kinds
    have count := congrArg List.length kinds
    rw [List.length_map, List.length_map] at count
    have ne : more ≠ [] := by
      rintro rfl
      rw [hc, List.append_nil] at size
      omega
    rw [← events]
    exact replay_left hc ne
  · next differ => exact replay_outOfStep (Nat.le_of_lt size) differ

end Sink

theorem Item.tokens_ne_nil (item : Item) : item.tokens ≠ [] := by
  cases item <;> simp [Item.tokens]

theorem Line.Kinded.tokens_pos {line : Line} (h : line.Kinded) :
    0 < (itemTokens line.items).length := by
  obtain ⟨item, rest, hi⟩ := List.exists_cons_of_ne_nil h.1
  rw [hi, itemTokens, List.length_append]
  have := List.length_pos_iff.2 item.tokens_ne_nil
  omega

theorem regrade_kinded {lines : List Line} (h : ∀ line ∈ lines, line.Kinded)
    (depths : Nat → Option Nat) : ∀ line ∈ regrade depths lines, line.Kinded := by
  induction lines generalizing depths with
  | nil => simp [regrade]
  | cons line rest ih =>
    have ⟨first, others⟩ := List.forall_mem_cons.1 h
    have tail := ih others fun number => depths (number + 1)
    rw [regrade]
    split
    · exact List.forall_mem_cons.2 ⟨first, tail⟩
    · exact tail

theorem lineTokens_regrade {lines : List Line} {depths : Nat → Option Nat}
    (kept : ∀ number < lines.length, depths number ≠ none) :
    lineTokens (regrade depths lines) = lineTokens lines := by
  induction lines generalizing depths with
  | nil => rfl
  | cons line rest ih =>
    have tail := ih fun number small => kept (number + 1) (by simpa using small)
    have first := kept 0 (by simp)
    obtain ⟨depth, hd⟩ := Option.ne_none_iff_exists'.1 first
    simp only [regrade, hd, lineTokens, List.flatMap_cons] at tail ⊢
    rw [tail]

theorem lineTokens_regrade_le (lines : List Line) (depths : Nat → Option Nat) :
    (lineTokens (regrade depths lines)).length ≤ (lineTokens lines).length := by
  induction lines generalizing depths with
  | nil => exact Nat.le_refl 0
  | cons line rest ih =>
    have tail := ih fun number => depths (number + 1)
    simp only [regrade, lineTokens, List.flatMap_cons, List.length_append] at tail ⊢
    split
    · simp only [List.flatMap_cons, List.length_append]
      omega
    · omega

theorem lineTokens_regrade_lt {lines : List Line} (h : ∀ line ∈ lines, line.Kinded)
    {depths : Nat → Option Nat} (removed : ∃ number < lines.length, depths number = none) :
    (lineTokens (regrade depths lines)).length < (lineTokens lines).length := by
  induction lines generalizing depths with
  | nil =>
    obtain ⟨number, small, _⟩ := removed
    exact absurd small (Nat.not_lt_zero number)
  | cons line rest ih =>
    have ⟨first, others⟩ := List.forall_mem_cons.1 h
    have size := first.tokens_pos
    have tail := lineTokens_regrade_le rest fun number => depths (number + 1)
    cases hd : depths 0 with
    | none =>
      simp only [regrade, hd, lineTokens, List.flatMap_cons, List.length_append] at tail ⊢
      omega
    | some depth =>
      obtain ⟨number, small, none⟩ := removed
      cases number with
      | zero =>
        rw [hd] at none
        cases none
      | succ number =>
        have strict := @ih others (fun number => depths (number + 1))
          ⟨number, by simpa using small, none⟩
        simp only [regrade, hd, lineTokens, List.flatMap_cons, List.length_append] at strict ⊢
        omega

theorem lines_eq_ok {document : Document} {settings : Settings} {tokens : List Token}
    {lines : List Line} (h : document.lines settings = .ok (tokens, lines)) :
    tokens = document.text.tokens ∧ LinesRead settings tokens lines := by
  rcases tokenize_cases document with ⟨faultless, closed⟩ | ⟨report, refused⟩
  · rw [Document.lines, (tokenize_eq_ok_iff document).2 ⟨faultless, closed⟩] at h
    rcases group_spec document settings faultless closed with
      ⟨report, refused, _⟩ | ⟨others, grouped, read⟩
    · simp only [Except.mapError, bind, Except.bind, Document.arrange, refused] at h
      cases h
    · simp only [Except.mapError, bind, Except.bind, Document.arrange, grouped] at h
      cases h
      exact ⟨rfl, read⟩
  · rw [Document.lines, refused] at h
    cases h

theorem Tree.Holds.text_eq {text : Source} {settings : Settings} {lines : List Line} {tree : Tree}
    (h : tree.Holds settings text.tokens lines) : tree.text = text := by
  rw [Tree.text, h.tokens_eq, scans_text (scans_tokens text)]

theorem build_kept {document : Document} {settings : Settings} {lines : List Line}
    (read : LinesRead settings document.text.tokens lines) (others : Settings)
    {depths : Nat → Option Nat} (kept : ∀ number < lines.length, depths number ≠ none) :
    (∃ tree, document.build others document.text.tokens (regrade depths lines) = .ok tree ∧
      tree.tokens = document.text.tokens ∧ tree.text = document.text) ∨
    ∃ report, document.build others document.text.tokens (regrade depths lines) =
      .error (.rejected report) := by
  have kinded := regrade_kinded (linesRead_kinded read) depths
  have made : content document.text.tokens = lineTokens (regrade depths lines) := by
    rw [lineTokens_regrade kept, linesRead_tokens read]
    rfl
  obtain ⟨tree, holds, built⟩ := build_of_kinded document others kinded made
  rw [built]
  cases accepted : document.accept (treeFindings document.text
      (clampDepths others.maxDepth 0 (regrade depths lines))) tree with
  | ok result =>
    obtain ⟨_, rfl⟩ := accept_eq_ok accepted
    exact Or.inl ⟨tree, rfl, holds.tokens_eq, holds.text_eq⟩
  | error report => exact Or.inr ⟨report, rfl⟩

theorem build_removed {document : Document} {settings : Settings} {lines : List Line}
    (read : LinesRead settings document.text.tokens lines) (others : Settings)
    {depths : Nat → Option Nat} (removed : ∃ number < lines.length, depths number = none) :
    (∃ report, document.build others document.text.tokens (regrade depths lines) =
      .error (.rejected report)) ∨
    document.build others document.text.tokens (regrade depths lines) =
      .error (.broken (if (lineTokens (regrade depths lines)).map Token.kind <+:
        (content document.text.tokens).map Token.kind then .tokensLeft else .tokensOutOfStep)) := by
  have kinded := regrade_kinded (linesRead_kinded read) depths
  have fewer := lineTokens_regrade_lt (linesRead_kinded read) removed
  have all : content document.text.tokens = lineTokens lines := linesRead_tokens read
  have held := elementTokens_clamped others.maxDepth (regrade depths lines)
  rw [← lineTokens] at held
  rw [← all, ← held] at fewer
  rw [Document.build, Builder.build_eq others.maxDepth kinded]
  cases hf : treeFindings document.text
      (clampDepths others.maxDepth 0 (regrade depths lines)) with
  | nil =>
    right
    simp only [hf, accept_nil, Sink.replay_short fewer, held]
    rfl
  | cons finding rest =>
    left
    obtain ⟨report, refused⟩ := accept_cons document finding rest
    simp only [hf, refused]
    exact ⟨report, rfl⟩

/-- A tree holds every token of its document, whatever depths its lines were given, and lines that
are left out leave no tree: faults of nesting are found, or the events of the other lines meet a
token of another kind, or they end before the tokens do. Meeting a token of another kind fails a
debug assertion. A build without it takes the token and goes on, and then has tokens left in the
end, as the other lines have too few for all of them. -/
theorem build_lossless_or_refused (document : Document) (settings : Settings) :
    (∀ tokens lines, document.lines settings = .ok (tokens, lines) →
      ∀ (others : Settings) (depths : Nat → Option Nat),
        (∀ tree, document.build others tokens (regrade depths lines) = .ok tree →
          (∀ number < lines.length, depths number ≠ none) ∧
            tree.tokens = document.text.tokens ∧ tree.text = document.text) ∧
        ((∃ number < lines.length, depths number = none) →
          (∃ report, document.build others tokens (regrade depths lines) =
            .error (.rejected report)) ∨
          document.build others tokens (regrade depths lines) =
            .error (.broken (if (lineTokens (regrade depths lines)).map Token.kind <+:
              (content tokens).map Token.kind then .tokensLeft else .tokensOutOfStep))) ∧
        ((∀ number < lines.length, depths number ≠ none) →
          (∃ tree, document.build others tokens (regrade depths lines) = .ok tree) ∨
          ∃ report, document.build others tokens (regrade depths lines) =
            .error (.rejected report))) ∧
    ∀ tree, document.parse settings = .ok tree →
      tree.tokens = document.text.tokens ∧ tree.text = document.text := by
  refine ⟨?_, ?_⟩
  · intro tokens lines reading others depths
    obtain ⟨rfl, read⟩ := lines_eq_ok reading
    refine ⟨?_, build_removed read others, ?_⟩
    · intro tree built
      have kept : ∀ number < lines.length, depths number ≠ none := by
        intro number small none
        rcases build_removed read others ⟨number, small, none⟩ with ⟨_, refused⟩ | refused
        · rw [built] at refused
          cases refused
        · rw [built] at refused
          cases refused
      rcases build_kept read others kept with ⟨made, same, whole⟩ | ⟨_, refused⟩
      · rw [built] at same
        cases same
        exact ⟨kept, whole⟩
      · rw [built] at refused
        cases refused
    · intro kept
      rcases build_kept read others kept with ⟨tree, built, _⟩ | refused
      · exact Or.inl ⟨tree, built⟩
      · exact Or.inr refused
  · intro tree parsed
    obtain ⟨_, _, lines, _, _, holds⟩ := parse_eq_ok parsed
    exact ⟨holds.tokens_eq, holds.text_eq⟩

/-- Two lines, the second below the first, make a tree; the second alone leaves a token over. -/
theorem build_lossless_or_refused_at :
    ∃ tokens lines tree, Document.lines ⟨"notes", ['a', '\n', 'b']⟩ .default = .ok (tokens, lines) ∧
      Document.build ⟨"notes", ['a', '\n', 'b']⟩ .default tokens
        (regrade (fun number => some number) lines) = .ok tree ∧
      tree.text = ['a', '\n', 'b'] ∧
      ((∃ report, Document.build ⟨"notes", ['a', '\n', 'b']⟩ .default tokens
          (regrade (fun number => if number = 0 then none else some 0) lines) =
            .error (.rejected report)) ∨
        Document.build ⟨"notes", ['a', '\n', 'b']⟩ .default tokens
          (regrade (fun number => if number = 0 then none else some 0) lines) =
            .error (.broken .tokensLeft)) := by
  refine ⟨_, _, _, rfl, rfl, ?_, ?_⟩
  · exact ((((build_lossless_or_refused ⟨"notes", ['a', '\n', 'b']⟩ .default).1 _ _ rfl .default
      fun number => some number).1) _ rfl).2.2
  · exact ((build_lossless_or_refused ⟨"notes", ['a', '\n', 'b']⟩ .default).1 _ _ rfl .default
      fun number => if number = 0 then none else some 0).2.1 ⟨0, by decide, rfl⟩

/-- With its first line left out, the events of a text of a term and a number run out of step with
the tokens before any could be left over. -/
theorem build_out_of_step :
    ∃ tokens lines, Document.lines ⟨"notes", ['a', '\n', '1']⟩ .default = .ok (tokens, lines) ∧
      ¬((∃ report, Document.build ⟨"notes", ['a', '\n', '1']⟩ .default tokens
          (regrade (fun number => if number = 0 then none else some 0) lines) =
            .error (.rejected report)) ∨
        Document.build ⟨"notes", ['a', '\n', '1']⟩ .default tokens
          (regrade (fun number => if number = 0 then none else some 0) lines) =
            .error (.broken .tokensLeft)) := by
  refine ⟨_, _, rfl, ?_⟩
  rintro (⟨report, rejected⟩ | left)
  · cases rejected
  · cases left

end TermOutline
