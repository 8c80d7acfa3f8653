import TermOutline.Proofs.Rendering

/-! # Canonical texts

The canonical text of nests, said rule by rule and without a renderer: one nest on a line, indented
by its level, and the nests of slots in line. Nests that can be written have exactly one such text,
which is the one that is rendered, and reading it gives the nests back.
-/
namespace TermOutline

mutual

/-- A nest in line: its head, followed by its children in parentheses when it has any. -/
inductive InlineForm : Nest → Source → Prop where
  | bare {head : Head} {text : Source} (hh : HeadForm head text) : InlineForm ⟨head, []⟩ text
  | call {head : Head} {children : List Nest} {text list : Source} (hh : HeadForm head text)
      (hl : ListForm children list) :
      InlineForm ⟨head, children⟩ (text ++ ['('] ++ list ++ [')'])

inductive HeadForm : Head → Source → Prop where
  | word {kind : WordKind} {text : Source} : HeadForm (.word kind text) text
  | text {parts : List Part} {body : Source} (hp : PartsForm parts body) :
      HeadForm (.text parts) (['<'] ++ body ++ ['>'])

inductive PartsForm : List Part → Source → Prop where
  | nil : PartsForm [] []
  | cut {text more : Source} {rest : List Part} (hp : PartsForm rest more) :
      PartsForm (.cut text :: rest) (text ++ more)
  | slot {nests : List Nest} {list more : Source} {rest : List Part} (hl : ListForm nests list)
      (hp : PartsForm rest more) :
      PartsForm (.slot nests :: rest) (['\x7b'] ++ list ++ ['\x7d'] ++ more)

/-- Nests in line with a comma and a space between them. There is no list without a nest. -/
inductive ListForm : List Nest → Source → Prop where
  | one {nest : Nest} {text : Source} (hi : InlineForm nest text) : ListForm [nest] text
  | more {nest : Nest} {nests : List Nest} {text list : Source} (hi : InlineForm nest text)
      (hl : ListForm nests list) : ListForm (nest :: nests) (text ++ [',', ' '] ++ list)

end

/-- The lines of nests that are `depth` levels deep, each with its children on the lines below. -/
inductive BlockForm (width : Nat) : Nat → List Nest → List Source → Prop where
  | nil {depth : Nat} : BlockForm width depth [] []
  | cons {depth : Nat} {head : Head} {children nests : List Nest} {text : Source}
      {below after : List Source} (hh : HeadForm head text)
      (hc : BlockForm width (depth + 1) children below) (hn : BlockForm width depth nests after) :
      BlockForm width depth (⟨head, children⟩ :: nests)
        ((blanks (depth * width) ++ text) :: (below ++ after))

/-- The canonical text of nests: their lines, with line feeds between them. -/
def CanonicalText (settings : Settings) (nests : List Nest) (text : Source) : Prop :=
  ∃ lines, BlockForm settings.indentWidth 0 nests lines ∧ text = ['\n'].intercalate lines

theorem separated_two (text next : Source) (rest : List Source) :
    separated (text :: next :: rest) = text ++ [',', ' '] ++ separated (next :: rest) := by
  rw [separated_cons]
  simp

theorem ListForm.ne_nil {nests : List Nest} {list : Source} (h : ListForm nests list) :
    nests ≠ [] := by
  cases h <;> simp

mutual

/-- The rules leave no choice. -/
theorem InlineForm.eq : ∀ {nest : Nest} {text : Source}, InlineForm nest text → text = nest.inline
  | _, _, .bare hh => hh.eq
  | _, _, @InlineForm.call head children text list hh hl => by
    obtain ⟨child, rest, rfl⟩ := List.exists_cons_of_ne_nil hl.ne_nil
    rw [hh.eq, hl.eq, Nest.inline, inlineAll]
    simp

theorem HeadForm.eq : ∀ {head : Head} {text : Source}, HeadForm head text → text = head.render
  | _, _, .word => rfl
  | _, _, .text hp => by
    rw [hp.eq, Head.render]
    simp

theorem PartsForm.eq : ∀ {parts : List Part} {text : Source},
    PartsForm parts text → text = renderParts parts
  | _, _, .nil => rfl
  | _, _, .cut hp => by rw [hp.eq, renderParts, Part.render]
  | _, _, .slot hl hp => by
    rw [hl.eq, hp.eq, renderParts, Part.render]
    simp

theorem ListForm.eq : ∀ {nests : List Nest} {list : Source},
    ListForm nests list → list = separated (inlineAll nests)
  | _, _, .one hi => by
    rw [hi.eq]
    simp [separated, inlineAll]
  | _, _, @ListForm.more nest nests text list hi hl => by
    obtain ⟨next, rest, rfl⟩ := List.exists_cons_of_ne_nil hl.ne_nil
    rw [hi.eq, hl.eq]
    simp only [inlineAll]
    rw [separated_two]

end

mutual

theorem nest_inlineForm : ∀ (nest : Nest), nest.Writable → InlineForm nest nest.inline
  | .mk head [], h => .bare (head_form head h.1)
  | .mk head (child :: rest), h => by
    have call := InlineForm.call (head_form head h.1)
      (list_form (child :: rest) h.2.2 (by simp))
    rw [Nest.inline]
    simpa [inlineAll] using call

theorem head_form : ∀ (head : Head), head.Writable → HeadForm head head.render
  | .word kind text, _ => .word
  | .text parts, h => by
    have text := HeadForm.text (parts_form parts h)
    rw [Head.render]
    simpa using text

theorem parts_form : ∀ (parts : List Part), partsWritable parts →
    PartsForm parts (renderParts parts)
  | [], _ => .nil
  | .cut text :: rest, ⟨_, _, others⟩ => .cut (parts_form rest others)
  | .slot nests :: rest, ⟨⟨ne, inner⟩, _, others⟩ => by
    have slot := PartsForm.slot (list_form nests inner ne) (parts_form rest others)
    rw [renderParts, Part.render]
    simpa using slot

theorem list_form : ∀ (nests : List Nest), nestsWritable nests → nests ≠ [] →
    ListForm nests (separated (inlineAll nests))
  | [], _, ne => absurd rfl ne
  | [nest], h, _ => by
    have one := ListForm.one (nest_inlineForm nest h.1)
    simpa [separated, inlineAll] using one
  | nest :: next :: rest, h, _ => by
    rw [inlineAll, inlineAll, separated_two]
    exact .more (nest_inlineForm nest h.1) (list_form (next :: rest) h.2 (by simp))

end

/-- A row of block form as a line of text. -/
def rowLine (width : Nat) (row : Nat × Source) : Source := blanks (row.1 * width) ++ row.2

theorem BlockForm.eq {width depth : Nat} {nests : List Nest} {lines : List Source}
    (h : BlockForm width depth nests lines) :
    lines = (nestRows depth nests).map (rowLine width) := by
  induction h with
  | nil => rfl
  | cons hh _ _ below after =>
    rw [nestRows, Nest.rows, List.map_append, List.map_cons, ← below, ← after, rowLine, hh.eq,
      List.cons_append]

mutual

theorem nest_blockForm (width : Nat) : ∀ (nest : Nest), nest.Writable → ∀ (depth : Nat)
    {nests : List Nest} {lines : List Source}, BlockForm width depth nests lines →
      BlockForm width depth (nest :: nests) ((nest.rows depth).map (rowLine width) ++ lines)
  | .mk head children, h, depth, nests, lines, after => by
    have below := nests_blockForm width children h.2.2 (depth + 1)
    rw [Nest.rows, List.map_cons, List.cons_append]
    exact .cons (head_form head h.1) below after

theorem nests_blockForm (width : Nat) : ∀ (nests : List Nest), nestsWritable nests →
    ∀ (depth : Nat), BlockForm width depth nests ((nestRows depth nests).map (rowLine width))
  | [], _, _ => .nil
  | nest :: rest, h, depth => by
    rw [nestRows, List.map_append]
    exact nest_blockForm width nest h.1 depth (nests_blockForm width rest h.2 depth)

end

theorem canonicalText_iff {settings : Settings} {nests : List Nest} (h : nestsWritable nests)
    {text : Source} : CanonicalText settings nests text ↔ text = renderNests settings nests := by
  constructor
  · rintro ⟨lines, block, rfl⟩
    rw [block.eq]
    rfl
  · rintro rfl
    exact ⟨_, nests_blockForm settings.indentWidth nests h 0, rfl⟩

/-- Every list of nests that can be written is what some document stands for: their canonical text
can be read when no level is too deep, it is read as the nests, and the tree is rendered as the same
text again. -/
theorem canonicalText_expresses {nests : List Nest} (h : nestsWritable nests) {settings : Settings}
    (shallow : ∀ depth nest, NestAt nests depth nest → depth ≤ settings.maxDepth) (file : String) :
    ∃ text, CanonicalText settings nests text ∧
      (∀ other, CanonicalText settings nests other → other = text) ∧
      ∃ tree : Tree, Document.parse ⟨file, text⟩ settings = .ok tree ∧ tree.outline = nests ∧
        tree.render settings = text := by
  refine ⟨renderNests settings nests, (canonicalText_iff h).2 rfl, ?_, ?_⟩
  · intro other canonical
    exact (canonicalText_iff h).1 canonical
  · rw [← headRows_depth_iff] at shallow
    rcases parse_renderNests h file settings with ⟨_, tree, outline, parsed⟩ | ⟨deep, _⟩
    · exact ⟨tree, parsed, outline, by rw [Tree.render, outline]⟩
    · exact absurd shallow deep

/-- A term above a text with a run, a slot that holds a call, and an escape. -/
theorem canonicalText_expresses_at :
    ∃ tree : Tree, Document.parse
        ⟨"", ['a', '\n', ' ', ' ', '<', 'h', '\x7b', 'b', '(', '1', ')', '\x7d', '\\', '>', '>']⟩
        ⟨2, 1, by decide⟩ = .ok tree ∧
      tree.outline = [⟨.word .term ['a'], [⟨.text [.cut ['h'],
        .slot [⟨.word .term ['b'], [⟨.word .size ['1'], []⟩]⟩], .cut ['\\', '>']], []⟩]⟩] := by
  have term (c : Char) (lower : c.isLower = true) : IsTerm [c] := ⟨c, [], rfl, lower, nofun⟩
  have size : IsSize ['1'] := ⟨[], ['1'], .inl rfl, ⟨nofun, List.forall_mem_singleton.2 rfl⟩, rfl⟩
  have run : IsPlain ['h'] := ⟨nofun, List.forall_mem_singleton.2 rfl⟩
  have escape : IsEscape ['\\', '>'] := ⟨'>', rfl, rfl⟩
  have writable : nestsWritable [⟨.word .term ['a'], [⟨.text [.cut ['h'],
      .slot [⟨.word .term ['b'], [⟨.word .size ['1'], []⟩]⟩], .cut ['\\', '>']], []⟩]⟩] := by
    simp [nestsWritable, Nest.Writable, Head.Writable, partsWritable, Part.Writable, Part.IsPlain,
      WordKind.Spells, Head.isValue, term, size, run, escape]
  obtain ⟨text, canonical, -, tree, parsed, outline, -⟩ :=
    @canonicalText_expresses _ writable ⟨2, 1, by decide⟩
      ((headRows_depth_iff _ _).1 (by simp [headRows, Nest.headRows])) ""
  obtain rfl := (canonicalText_iff writable).1 canonical
  exact ⟨tree, parsed, outline⟩

end TermOutline
