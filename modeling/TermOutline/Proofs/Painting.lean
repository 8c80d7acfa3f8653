import TermOutline.Proofs.Positions

/-! # What colour adds

Colour wraps parts of a print in terminal codes. The parts between them come from anywhere, and may
hold terminal codes of their own, whole or begun. Each of them is followed by a character that is in
no code, so that deleting the codes of a painted print leaves what deleting those of the plain print
does.
-/
namespace TermOutline

/-- A terminal code: the escape character, an opening bracket, digits and semicolons, and the letter
`m`. -/
def IsTerminalCode (text : Source) : Prop :=
  ∃ parameters : Source, text = '\x1b' :: '[' :: (parameters ++ ['m']) ∧
    ∀ c ∈ parameters, c.isDigit = true ∨ c = ';'

/-- The text with its terminal codes deleted, from left to right. What is left is not searched
again. -/
inductive Stripped : Source → Source → Prop where
  | nil : Stripped [] []
  | code {code rest kept : Source} (h : IsTerminalCode code) (others : Stripped rest kept) :
      Stripped (code ++ rest) kept
  | char {c : Char} {rest kept : Source} (plain : ∀ code, IsTerminalCode code → ¬code <+: c :: rest)
      (others : Stripped rest kept) : Stripped (c :: rest) (c :: kept)

/-- The characters that codes are made of. -/
def inTerminalCodes (c : Char) : Bool :=
  c == '\x1b' || c == '[' || c.isDigit || c == ';' || c == 'm'

/-! ## Deleting codes -/

theorem isTerminalCode {number : String} (h : number.toList.all Char.isDigit = true) :
    IsTerminalCode (terminalCode number) := by
  refine ⟨number.toList, rfl, ?_⟩
  intro c member
  exact Or.inl (List.all_eq_true.1 h c member)

theorem IsTerminalCode.inTerminalCodes {code : Source} (h : IsTerminalCode code) :
    ∀ c ∈ code, inTerminalCodes c = true := by
  obtain ⟨parameters, rfl, each⟩ := h
  intro c member
  rw [List.mem_cons, List.mem_cons, List.mem_append, List.mem_singleton] at member
  rcases member with rfl | rfl | inside | rfl
  · rfl
  · rfl
  · rcases each c inside with digit | rfl
    · simp [TermOutline.inTerminalCodes, digit]
    · rfl
  · rfl

theorem IsTerminalCode.head {code text : Source} {c : Char} (h : IsTerminalCode code)
    (first : code <+: c :: text) : c = '\x1b' := by
  obtain ⟨parameters, rfl, _⟩ := h
  obtain ⟨more, same⟩ := first
  exact (List.cons.inj same).1.symm

theorem IsTerminalCode.rest_unique {code other rest more : Source} (h : IsTerminalCode code)
    (h' : IsTerminalCode other) (same : code ++ rest = other ++ more) : rest = more := by
  obtain ⟨parameters, rfl, each⟩ := h
  obtain ⟨others, rfl, every⟩ := h'
  simp only [List.cons_append, List.append_assoc, List.nil_append, List.cons.injEq,
    true_and] at same
  induction parameters generalizing others with
  | nil =>
    cases others with
    | nil => exact (List.cons.inj same).2
    | cons c _ =>
      obtain ⟨rfl, _⟩ := List.cons.inj same
      rcases every 'm' List.mem_cons_self with digit | semicolon
      · cases digit
      · cases semicolon
  | cons c parameters ih =>
    have ⟨first, later⟩ := List.forall_mem_cons.1 each
    cases others with
    | nil =>
      obtain ⟨rfl, _⟩ := List.cons.inj same
      rcases first with digit | semicolon
      · cases digit
      · cases semicolon
    | cons d others => exact ih later others (List.forall_mem_cons.1 every).2 (List.cons.inj same).2

theorem Stripped.inversion {text kept : Source} (h : Stripped text kept) :
    (text = [] ∧ kept = []) ∨
    (∃ code rest, IsTerminalCode code ∧ text = code ++ rest ∧ Stripped rest kept) ∨
    ∃ c rest others, text = c :: rest ∧ kept = c :: others ∧
      (∀ code, IsTerminalCode code → ¬code <+: c :: rest) ∧ Stripped rest others := by
  cases h with
  | nil => exact Or.inl ⟨rfl, rfl⟩
  | code isCode others => exact Or.inr (Or.inl ⟨_, _, isCode, rfl, others⟩)
  | char plain others => exact Or.inr (Or.inr ⟨_, _, _, rfl, rfl, plain, others⟩)

theorem Stripped.unique {text kept other : Source} (h : Stripped text kept)
    (h' : Stripped text other) : other = kept := by
  induction h generalizing other with
  | nil =>
    rcases h'.inversion with ⟨_, rfl⟩ | ⟨code, rest, isCode, same, _⟩ | ⟨c, rest, others, same, _⟩
    · rfl
    · obtain ⟨parameters, rfl, _⟩ := isCode
      cases same
    · cases same
  | @code code rest kept isCode _ ih =>
    rcases h'.inversion with ⟨same, _⟩ | ⟨first, more, isFirst, same, others⟩ |
      ⟨c, more, others, same, _, plain, _⟩
    · obtain ⟨parameters, rfl, _⟩ := isCode
      cases same
    · obtain rfl := isCode.rest_unique isFirst same
      exact ih others
    · exact absurd ⟨rest, same⟩ (plain code isCode)
  | @char c rest kept plain _ ih =>
    rcases h'.inversion with ⟨same, _⟩ | ⟨code, more, isCode, same, _⟩ |
      ⟨d, more, others, same, rfl, _, stripped⟩
    · cases same
    · exact absurd ⟨more, same.symm⟩ (plain code isCode)
    · obtain ⟨rfl, rfl⟩ := List.cons.inj same
      rw [ih stripped]

theorem exists_stripped (text : Source) : ∃ kept, Stripped text kept := by
  induction size : text.length using Nat.strong_induction_on generalizing text with
  | h size' ih =>
    subst size
    cases text with
    | nil => exact ⟨[], .nil⟩
    | cons c rest =>
      by_cases starts : ∃ code, IsTerminalCode code ∧ code <+: c :: rest
      · obtain ⟨code, isCode, others, split⟩ := starts
        have shorter : others.length < (c :: rest).length := by
          obtain ⟨parameters, rfl, _⟩ := isCode
          rw [← split, List.length_append, List.length_cons]
          omega
        obtain ⟨kept, stripped⟩ := ih _ shorter others rfl
        rw [← split]
        exact ⟨kept, .code isCode stripped⟩
      · obtain ⟨kept, stripped⟩ := ih _ (Nat.lt_succ_self _) rest rfl
        exact ⟨c :: kept, .char (fun code isCode first => starts ⟨code, isCode, first⟩) stripped⟩

theorem stripped_append_plain {lead text kept : Source} (h : '\x1b' ∉ lead)
    (others : Stripped text kept) : Stripped (lead ++ text) (lead ++ kept) := by
  induction lead with
  | nil => exact others
  | cons c lead ih =>
    rw [List.mem_cons, not_or] at h
    obtain ⟨first, rest⟩ := h
    exact .char (fun code isCode starts => first (isCode.head starts).symm) (ih rest)

/-- No code reaches across a character that is in none. -/
theorem stripped_append_sealed {front back kept others : Source} {c : Char}
    (sealed : inTerminalCodes c = false) (hf : Stripped front kept) (hb : Stripped back others) :
    Stripped (front ++ c :: back) (kept ++ c :: others) := by
  have outside : ∀ code, IsTerminalCode code → c ∉ code := by
    intro code isCode member
    rw [isCode.inTerminalCodes c member] at sealed
    cases sealed
  induction hf with
  | nil =>
    refine .char ?_ hb
    intro code isCode first
    rw [isCode.head first] at sealed
    cases sealed
  | code isCode _ ih =>
    rw [List.append_assoc]
    exact .code isCode ih
  | @char d rest kept plain _ ih =>
    refine .char ?_ ih
    intro code isCode first
    -- a code that starts here ends before `c`, and so it starts the front as well
    have upTo : (d :: rest) ++ [c] <+: (d :: rest) ++ c :: back := ⟨back, by simp⟩
    rcases List.prefix_or_prefix_of_prefix first upTo with inside | across
    · rcases List.prefix_concat_iff.1 inside with rfl | before
      · exact outside _ isCode (List.mem_append_right _ List.mem_cons_self)
      · exact plain code isCode before
    · exact outside code isCode (across.subset (List.mem_append_right _ List.mem_cons_self))

/-! ## Texts that differ in codes only -/

/-- Texts of which the same is left without terminal codes. -/
def SameStripped (text other : Source) : Prop := ∃ kept, Stripped text kept ∧ Stripped other kept

namespace SameStripped

theorem refl (text : Source) : SameStripped text text := by
  obtain ⟨kept, stripped⟩ := exists_stripped text
  exact ⟨kept, stripped, stripped⟩

variable {text other : Source}

theorem code {code : Source} (h : IsTerminalCode code) (same : SameStripped text other) :
    SameStripped (code ++ text) other := by
  obtain ⟨kept, one, two⟩ := same
  exact ⟨kept, .code h one, two⟩

theorem plain {lead : Source} (h : '\x1b' ∉ lead) (same : SameStripped text other) :
    SameStripped (lead ++ text) (lead ++ other) := by
  obtain ⟨kept, one, two⟩ := same
  exact ⟨lead ++ kept, stripped_append_plain h one, stripped_append_plain h two⟩

theorem append_sealed {front before : Source} {c : Char} (sealed : inTerminalCodes c = false)
    (first : SameStripped front before) (same : SameStripped text other) :
    SameStripped (front ++ c :: text) (before ++ c :: other) := by
  obtain ⟨kept, one, two⟩ := first
  obtain ⟨others, three, four⟩ := same
  exact ⟨kept ++ c :: others, stripped_append_sealed sealed one three,
    stripped_append_sealed sealed two four⟩

/-- The codes around what is painted are whole. -/
theorem before (role : Role) (same : SameStripped text other) :
    SameStripped (role.before ++ text) other := by
  have bold : IsTerminalCode (terminalCode "1") := isTerminalCode (by decide)
  have red : IsTerminalCode (terminalCode "31") := isTerminalCode (by decide)
  have blue : IsTerminalCode (terminalCode "34") := isTerminalCode (by decide)
  cases role with
  | header =>
    rw [Role.before, List.append_assoc]
    exact code bold (code red same)
  | gutter =>
    rw [Role.before, List.append_assoc]
    exact code bold (code blue same)
  | caret => exact code red same

theorem after (role : Role) (same : SameStripped text other) :
    SameStripped (role.after ++ text) other := by
  have uncolored : IsTerminalCode (terminalCode "39") := isTerminalCode (by decide)
  have reset : IsTerminalCode (terminalCode "0") := isTerminalCode (by decide)
  cases role with
  | header | gutter =>
    rw [Role.after, List.append_assoc]
    exact code uncolored (code reset same)
  | caret => exact code uncolored same

theorem paint (style : Style) (role : Role) {painted : Source} (h : '\x1b' ∉ painted)
    (same : SameStripped text other) :
    SameStripped (style.paint role painted ++ text) (painted ++ other) := by
  cases style with
  | plain => exact plain h same
  | color =>
    rw [Style.paint, List.append_assoc, List.append_assoc]
    exact before role (plain h (after role same))

theorem paint_last (style : Style) (role : Role) {painted : Source} (h : '\x1b' ∉ painted) :
    SameStripped (style.paint role painted) painted := by
  simpa using paint style role h (refl [])

/-- A text of any kind can be painted together with a character that is in no code. -/
theorem paint_sealed (style : Style) (role : Role) (painted : Source) {c : Char}
    (sealed : inTerminalCodes c = false) (same : SameStripped text other) :
    SameStripped (style.paint role (painted ++ [c]) ++ text) (painted ++ [c] ++ other) := by
  rw [List.append_assoc painted]
  cases style with
  | plain =>
    rw [Style.paint, List.append_assoc]
    exact append_sealed sealed (refl painted) same
  | color =>
    rw [Style.paint, List.append_assoc, List.append_assoc, List.append_assoc]
    exact before role (append_sealed sealed (refl painted) (after role same))

/-- Lines are joined by a line feed, which is in no code. -/
theorem intercalate {more : Source} (h : '\x1b' ∉ more) {lines others : List Source}
    (each : List.Forall₂ SameStripped lines others) :
    SameStripped (List.intercalate ('\n' :: more) lines)
      (List.intercalate ('\n' :: more) others) := by
  induction each with
  | nil => exact refl _
  | @cons line other lines others first later ih =>
    cases later with
    | nil => simpa using first
    | cons second later =>
      rw [List.intercalate_cons_cons, List.intercalate_cons_cons, List.append_assoc,
        List.append_assoc]
      exact append_sealed (by decide) first (plain h ih)

end SameStripped

/-! ## Prints -/

theorem renderHeader_same (code : String) (style : Style) {text other : Source}
    (same : SameStripped text other) :
    SameStripped (renderHeader code style ++ text) (renderHeader code .plain ++ other) := by
  have split : "kink[".toList ++ code.toList ++ "]:".toList =
      ("kink[".toList ++ code.toList ++ [']']) ++ [':'] := by
    simp
  rw [renderHeader, renderHeader, split]
  exact .paint_sealed style .header _ (by decide) same

theorem Span.render_same (span : Span) (file : String) (style : Style) :
    SameStripped (span.render file style) (span.render file .plain) := by
  simp only [Span.render, List.append_assoc]
  exact .plain (by decide) (.paint style .gutter (by decide) (.refl _))

theorem Placement.render_same (placement : Placement) (file : String) (style : Style) :
    List.Forall₂ SameStripped (placement.render file style) (placement.render file .plain) := by
  have number : '\x1b' ∉ digits placement.line := not_mem_digits (by decide) _
  have pad : ∀ count, '\x1b' ∉ blanks count := fun count => not_mem_blanks (by decide) count
  have space : '\x1b' ∉ [' '] := by decide
  have bar : '\x1b' ∉ ['|'] := by decide
  have carets : '\x1b' ∉ List.replicate placement.width '^' := by
    simp
  simp only [Placement.render, List.append_assoc]
  refine .cons ?_ (.cons ?_ (.cons ?_ (.cons ?_ .nil)))
  · exact .plain (pad _) (.paint style .gutter (by decide) (.refl _))
  · exact .plain (pad _) (.plain space (.paint_last style .gutter bar))
  · exact .paint style .gutter number (.plain space (.paint style .gutter bar (.refl _)))
  · exact .plain (pad _) (.plain space (.paint style .gutter bar (.plain space
      (.plain (pad _) (.paint_last style .caret carets)))))

theorem Diagnostic.render_same (diagnostic : Diagnostic) (style : Style) :
    SameStripped (diagnostic.render style) (diagnostic.render .plain) := by
  simp only [Diagnostic.render, List.append_assoc]
  refine .intercalate List.not_mem_nil (.cons (renderHeader_same _ style (.refl _)) ?_)
  cases diagnostic.placement with
  | none => exact .cons (diagnostic.span.render_same _ style) .nil
  | some placement => exact placement.render_same _ style

theorem Report.render_same (report : Report) (style : Style) :
    SameStripped (report.render style) (report.render .plain) := by
  simp only [Report.render, List.append_assoc]
  split
  · exact report.first.render_same style
  · refine .intercalate (by decide) (.cons (renderHeader_same _ style (.refl _)) ?_)
    rw [List.forall₂_map_left_iff, List.forall₂_map_right_iff, List.forall₂_same]
    exact fun diagnostic _ => diagnostic.render_same style

/-! ## Prints without escapes -/

/-- Nothing that the diagnostic says has an escape character. -/
structure Diagnostic.EscapeFree (diagnostic : Diagnostic) : Prop where
  code : '\x1b' ∉ diagnostic.code.toList
  note : '\x1b' ∉ diagnostic.note.toList
  file : '\x1b' ∉ diagnostic.file.toList
  lineText : ∀ placement ∈ diagnostic.placement, '\x1b' ∉ placement.lineText

def Report.EscapeFree (report : Report) : Prop :=
  ∀ diagnostic ∈ report.toList, diagnostic.EscapeFree

theorem not_mem_intercalate {c : Char} {separator : Source} (h : c ∉ separator)
    {lines : List Source} (each : ∀ line ∈ lines, c ∉ line) : c ∉ separator.intercalate lines := by
  induction lines with
  | nil => exact List.not_mem_nil
  | cons line lines ih =>
    have ⟨first, later⟩ := List.forall_mem_cons.1 each
    cases lines with
    | nil => simpa using first
    | cons second lines =>
      rw [List.intercalate_cons_cons]
      simp [first, h, ih later]

theorem Diagnostic.EscapeFree.render {diagnostic : Diagnostic} (h : diagnostic.EscapeFree) :
    '\x1b' ∉ diagnostic.render .plain := by
  have number : ∀ value, '\x1b' ∉ digits value := fun value => not_mem_digits (by decide) value
  have pad : ∀ count, '\x1b' ∉ blanks count := fun count => not_mem_blanks (by decide) count
  have header :
      '\x1b' ∉ renderHeader diagnostic.code .plain ++ [' '] ++ diagnostic.note.toList := by
    simp [renderHeader, Style.paint, h.code, h.note]
  refine not_mem_intercalate (by decide) (List.forall_mem_cons.2 ⟨header, ?_⟩)
  cases placed : diagnostic.placement with
  | none =>
    simp [Span.render, Style.paint, h.file, number]
  | some placement =>
    have lineText := h.lineText placement placed
    simp [Placement.render, Style.paint, h.file, number, pad, lineText]

theorem Report.EscapeFree.summary {report : Report} (h : report.EscapeFree) :
    '\x1b' ∉ report.summary.toList := by
  rw [Report.summary]
  split
  · exact (h _ List.mem_cons_self).note
  · have number : '\x1b' ∉ Nat.toDigits 10 report.size := not_mem_digits (by decide) report.size
    simp [toString, Nat.repr, number]

theorem Report.EscapeFree.render {report : Report} (h : report.EscapeFree) :
    '\x1b' ∉ report.render .plain := by
  rw [Report.render]
  split
  · exact (h _ List.mem_cons_self).render
  · refine not_mem_intercalate (by decide) (List.forall_mem_cons.2 ⟨?_, ?_⟩)
    · simp [renderHeader, Style.paint, h.summary]
    · intro line member
      obtain ⟨diagnostic, among, rfl⟩ := List.mem_map.1 member
      exact (h diagnostic among).render

/-- Deleting the terminal codes of a report printed in colour leaves what deleting those of the
plain print does: the plain print itself, unless something in the report has escape characters. -/
theorem render_color_stripped (report : Report) : ∃ kept,
    (∀ other, Stripped (report.render .color) other ↔ other = kept) ∧
    (∀ other, Stripped (report.render .plain) other ↔ other = kept) ∧
    (report.EscapeFree → kept = report.render .plain) := by
  obtain ⟨kept, color, plain⟩ := report.render_same .color
  refine ⟨kept, ?_, ?_, ?_⟩
  · intro other
    exact ⟨color.unique, fun same => same ▸ color⟩
  · intro other
    exact ⟨plain.unique, fun same => same ▸ plain⟩
  · intro free
    have whole := stripped_append_plain free.render .nil
    rw [List.append_nil] at whole
    exact whole.unique plain

/-- Codes begun in one string of a diagnostic are not completed by the next, and two diagnostics
without escapes are printed in colour with nothing but codes added. -/
theorem render_color_stripped_begun :
    (∃ kept,
      Stripped
        ((Report.single ⟨.lexical, "a\x1b[3", "1m\x1b[", "m\x1b", ⟨0, 1⟩, none⟩).render .color)
        kept ∧
      Stripped
        ((Report.single ⟨.lexical, "a\x1b[3", "1m\x1b[", "m\x1b", ⟨0, 1⟩, none⟩).render .plain)
        kept) ∧
    ∃ report : Report, report = ⟨⟨.lexical, "a", "b", "f", ⟨0, 1⟩, some ⟨1, 1, ['x'], 1⟩⟩,
        [⟨.structural, "c", "d", "f", ⟨2, 3⟩, none⟩]⟩ ∧ report.EscapeFree ∧
      ∀ kept, Stripped (report.render .color) kept → kept = report.render .plain := by
  constructor
  · obtain ⟨kept, color, plain, _⟩ := render_color_stripped
      (Report.single ⟨.lexical, "a\x1b[3", "1m\x1b[", "m\x1b", ⟨0, 1⟩, none⟩)
    exact ⟨kept, (color kept).2 rfl, (plain kept).2 rfl⟩
  · refine ⟨_, rfl, ?_⟩
    have free : Report.EscapeFree ⟨⟨.lexical, "a", "b", "f", ⟨0, 1⟩, some ⟨1, 1, ['x'], 1⟩⟩,
        [⟨.structural, "c", "d", "f", ⟨2, 3⟩, none⟩]⟩ := by
      refine List.forall_mem_cons.2 ⟨⟨?_, ?_, ?_, ?_⟩, List.forall_mem_singleton.2 ⟨?_, ?_, ?_, ?_⟩⟩
      all_goals decide
    refine ⟨free, ?_⟩
    intro kept stripped
    obtain ⟨other, color, _, same⟩ := render_color_stripped _
    rw [(color kept).1 stripped, same free]

end TermOutline
