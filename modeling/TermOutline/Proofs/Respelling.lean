import TermOutline.Proofs.Meaning
import TermOutline.Proofs.Relocation

/-! # Documents that say the same

What the grammar reads from tokens hangs on their kinds and texts, and on whether a parenthesis
directly follows a term; where they stand does not matter otherwise. So two documents whose lines
agree in this way, line by line, are accepted together and mean the same.
-/
namespace TermOutline

/-- Tokens of the same kinds and texts at other places, where a parenthesis that directly follows a
term still does. -/
inductive Alike : List Token → List Token → Prop where
  | nil : Alike [] []
  | cons {token other : Token} {rest others : List Token} (kind : other.kind = token.kind)
      (text : other.text = token.text)
      (calls : ∀ opening ∈ rest.head?, ∀ moved ∈ others.head?, token.kind = .term →
        opening.kind = .parenOpen → opening.start = token.span.stop →
          moved.start = other.span.stop)
      (tail : Alike rest others) : Alike (token :: rest) (other :: others)

theorem alike_refl (tokens : List Token) : Alike tokens tokens := by
  induction tokens with
  | nil => exact .nil
  | cons token rest ih =>
    refine .cons rfl rfl ?_ ih
    intro opening first moved same _ _ adjacent
    rwa [Option.some.inj (same.symm.trans first)]

theorem alike_relocate (move : Relocation) {tokens : List Token}
    (h : ∀ token ∈ tokens, (move.token token).text = token.text) :
    Alike tokens (tokens.map move.token) := by
  induction tokens with
  | nil => exact .nil
  | cons token rest ih =>
    obtain ⟨first, others⟩ := List.forall_mem_cons.1 h
    refine .cons (move.kind_token token) first ?_ (ih others)
    intro opening next moved same _ _ adjacent
    rw [List.head?_map, next] at same
    rw [← Option.some.inj same, move.start_token, move.stop_token, adjacent]

/-- Moved back, as long as no two places become one. -/
theorem alike_of_relocate (move : Relocation) (apart : Function.Injective move.offset)
    {tokens : List Token} (h : ∀ token ∈ tokens, (move.token token).text = token.text) :
    Alike (tokens.map move.token) tokens := by
  induction tokens with
  | nil => exact .nil
  | cons token rest ih =>
    obtain ⟨first, others⟩ := List.forall_mem_cons.1 h
    refine .cons (move.kind_token token).symm first.symm ?_ (ih others)
    intro opening next moved same _ _ adjacent
    rw [List.head?_map, same] at next
    rw [← Option.some.inj next, move.start_token, move.stop_token] at adjacent
    exact apart adjacent

theorem Alike.append {front front' back back' : List Token} (hf : Alike front front')
    (hb : Alike back back')
    (apart : ∀ last ∈ front.getLast?, ∀ first ∈ back.head?, last.kind = .term →
      first.kind = .parenOpen → first.start ≠ last.span.stop) :
    Alike (front ++ back) (front' ++ back') := by
  induction hf with
  | nil => exact hb
  | @cons token other rest others kind text calls tail ih =>
    refine .cons kind text ?_ (ih ?_)
    · cases tail with
      | nil =>
        intro opening first _ _ term paren adjacent
        exact absurd adjacent (apart token rfl opening first term paren)
      | cons => exact calls
    · intro last final
      refine apart last ?_
      rw [List.getLast?_cons, final]
      rfl

theorem Alike.split {front back others : List Token} (h : Alike (front ++ back) others) :
    ∃ front' back', others = front' ++ back' ∧ Alike front front' ∧ Alike back back' := by
  induction front generalizing others with
  | nil => exact ⟨[], others, rfl, .nil, h⟩
  | cons token rest ih =>
    cases h with
    | cons kind text calls tail =>
      obtain ⟨front', back', rfl, hf, hb⟩ := ih tail
      refine ⟨_ :: front', back', rfl, .cons kind text ?_ hf, hb⟩
      cases hf with
      | nil => nofun
      | cons => exact calls

mutual

theorem ReadsItem.alike : ∀ {tokens others : List Token} {head : Head} {nests : List Nest},
    ReadsItem tokens head nests → Alike tokens others → ReadsItem others head nests
  | _, _, _, _, .word hk, h => by
    obtain _ | ⟨kind, text, _, ⟨⟩⟩ := h
    rw [← text]
    exact .word (by rwa [kind])
  | _, _, _, _, .call hh ho hc adjacent hb, h => by
    obtain _ | ⟨kind, text, calls, _ | ⟨kind', _, _, tail⟩⟩ := h
    obtain ⟨body, last, rfl, within, _ | ⟨kind'', _, _, ⟨⟩⟩⟩ := tail.split
    rw [← text]
    exact .call (kind.trans hh) (kind'.trans ho) (kind''.trans hc)
      (calls _ rfl _ rfl hh ho adjacent) (hb.alike within)
  | _, _, _, _, .text ho hc hb, h => by
    obtain _ | ⟨kind, _, _, tail⟩ := h
    obtain ⟨body, last, rfl, within, _ | ⟨kind', _, _, ⟨⟩⟩⟩ := tail.split
    exact .text (kind.trans ho) (kind'.trans hc) (hb.alike within)

theorem ReadsParts.alike : ∀ {tokens others : List Token} {parts : List Part},
    ReadsParts tokens parts → Alike tokens others → ReadsParts others parts
  | _, _, _, .nil, h => by
    cases h
    exact .nil
  | _, _, _, .cut hk hr, h => by
    obtain _ | ⟨kind, text, _, tail⟩ := h
    rw [← text]
    exact .cut (kind.trans hk) (hr.alike tail)
  | _, _, _, .slot ho hc hb hr, h => by
    obtain _ | ⟨kind, _, _, tail⟩ := h
    obtain ⟨body, last, rfl, within, _ | ⟨kind', _, _, after⟩⟩ := tail.split
    exact .slot (kind.trans ho) (kind'.trans hc) (hb.alike within) (hr.alike after)

theorem ReadsChain.alike : ∀ {tokens others : List Token} {nest : Nest},
    ReadsChain tokens nest → Alike tokens others → ReadsChain others nest
  | _, _, _, .last hi, h => .last (hi.alike h)
  | _, _, _, .more hi term hc, h => by
    obtain ⟨front, back, rfl, hf, hb⟩ := h.split
    exact .more (hi.alike hf) term (hc.alike hb)

theorem ReadsList.alike : ∀ {tokens others : List Token} {nests : List Nest},
    ReadsList tokens nests → Alike tokens others → ReadsList others nests
  | _, _, _, .one hc, h => .one (hc.alike h)
  | _, _, _, .more hc hk hl, h => by
    obtain ⟨front, back, rfl, hf, _ | ⟨kind, _, _, tail⟩⟩ := h.split
    exact .more (hc.alike hf) (kind.trans hk) (hl.alike tail)

end

theorem ReadsLine.alike {tokens others : List Token} {head : Head} {nests : List Nest}
    (h : ReadsLine tokens head nests) (same : Alike tokens others) :
    ReadsLine others head nests := by
  cases h with
  | bare hi => exact .bare (hi.alike same)
  | more hi term hl =>
    obtain ⟨front, back, rfl, hf, hb⟩ := same.split
    exact .more (hi.alike hf) term (hl.alike hb)

/-- Lines with the same indentation that say the same. -/
structure LineAlike (line other : List Token) : Prop where
  spaces : leadingSpaces other = leadingSpaces line
  content : Alike (content line) (content other)

section Moved

variable (move : Relocation) {line : List Token}
  (h : ∀ token ∈ line, token.kind ≠ .line → (move.token token).text = token.text)

include h

theorem leadingSpaces_relocate : leadingSpaces (line.map move.token) = leadingSpaces line := by
  cases line with
  | nil => rfl
  | cons token rest =>
    rw [List.map_cons, leadingSpaces, leadingSpaces, move.kind_token]
    split
    · next space => rw [h token List.mem_cons_self (by simp [space])]
    · rfl

theorem content_text_relocate : ∀ token ∈ content line, (move.token token).text = token.text := by
  intro token member
  obtain ⟨inside, significant⟩ := List.mem_filter.1 member
  refine h token inside ?_
  intro ending
  rw [isTrivia_of_line ending] at significant
  cases significant

/-- A line whose tokens are moved, the break apart, without a change of text. -/
theorem lineAlike_relocate : LineAlike line (line.map move.token) := by
  refine ⟨leadingSpaces_relocate move h, ?_⟩
  rw [content_relocate]
  exact alike_relocate move (content_text_relocate move h)

theorem lineAlike_of_relocate (apart : Function.Injective move.offset) :
    LineAlike (line.map move.token) line := by
  refine ⟨(leadingSpaces_relocate move h).symm, ?_⟩
  rw [content_relocate]
  exact alike_of_relocate move apart (content_text_relocate move h)

end Moved

theorem lines_alike_shift (bytes : Nat) (lines : List (List Token)) :
    List.Forall₂ LineAlike lines (lines.map (List.map (Relocation.shift bytes).token)) := by
  rw [List.forall₂_map_right_iff, List.forall₂_same]
  intro line _
  exact lineAlike_relocate _ fun _ _ _ => rfl

theorem contentLines_relocate (move : Relocation) (tokens : List Token) :
    contentLines (tokens.map move.token) = (contentLines tokens).map (List.map move.token) := by
  rw [contentLines, contentLines, splitLines_relocate, List.filter_map]
  simp [Function.comp_def]

theorem LineAlike.reads {settings : Settings} {line other : List Token} (h : LineAlike line other)
    {row : Row} (reads : row.Reads settings line) : row.Reads settings other :=
  ⟨h.spaces.trans reads.depth, reads.derives.alike h.content⟩

theorem rows_alike {settings : Settings} {lines others : List (List Token)} {rows : List Row}
    (h : List.Forall₂ LineAlike lines others)
    (reads : List.Forall₂ (Row.Reads settings) lines rows) :
    List.Forall₂ (Row.Reads settings) others rows := by
  induction h generalizing rows with
  | nil =>
    cases reads
    exact .nil
  | cons same _ ih =>
    obtain _ | ⟨first, rest⟩ := reads
    exact .cons (same.reads first) (ih rest)

/-- Rows that fit, read from a text without lexical faults, are the lines of its tree. -/
theorem parse_of_rows {document : Document} {settings : Settings} {rows : List Row}
    (faultless : Faultless document.text.tokens) (closed : Closed .initial document.text.tokens)
    (reads : List.Forall₂ (Row.Reads settings) (contentLines document.text.tokens) rows)
    (fit : RowsFit settings.maxDepth 0 rows) :
    ∃ tree : Tree, document.parse settings = .ok tree ∧ ReadsBlock 0 rows tree.outline := by
  obtain ⟨lines, read, said⟩ := lines_of_rows reads (fun _ => mem_contentLines) document.text
  obtain ⟨tree, holds, parsed⟩ := parse_of_linesRead faultless closed read
  rw [(treeFindings_eq_nil_iff said).2 fit, accept_nil] at parsed
  exact ⟨tree, parsed, (holds.formed said fit).1⟩

theorem parse_block {document : Document} {settings : Settings} {tree : Tree}
    (h : document.parse settings = .ok tree) : ∃ rows,
      List.Forall₂ (Row.Reads settings) (contentLines document.text.tokens) rows ∧
        RowsFit settings.maxDepth 0 rows ∧ ReadsBlock 0 rows tree.outline := by
  obtain ⟨lines, rows, reads, said, fit, holds⟩ := parse_rows h
  exact ⟨rows, reads, fit, (holds.formed said fit).1⟩

/-- A document without lexical faults whose lines are like those of a document that has a tree has a
tree that means the same. -/
theorem parse_alike {document other : Document} {settings : Settings} {tree : Tree}
    (h : document.parse settings = .ok tree) (faultless : Faultless other.text.tokens)
    (closed : Closed .initial other.text.tokens)
    (lines : List.Forall₂ LineAlike (contentLines document.text.tokens)
      (contentLines other.text.tokens)) :
    ∃ moved : Tree, other.parse settings = .ok moved ∧ moved.outline = tree.outline := by
  obtain ⟨rows, reads, fit, block⟩ := parse_block h
  obtain ⟨moved, parsed, same⟩ := parse_of_rows faultless closed (rows_alike lines reads) fit
  exact ⟨moved, parsed, same.unique block⟩

end TermOutline
