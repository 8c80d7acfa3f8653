import TermOutline.Diagnostic.Render
import TermOutline.Proofs.Histories
import TermOutline.Proofs.LineEndings
import TermOutline.Proofs.Refusals

/-! # Where readers are sent

What a refused document is reported for is placed where counting its characters leads: by the line
feeds before a span, by the characters before it on its row, and by those in it that the row shows.
Printed, the carets stand under the reported characters of the row.
-/
namespace TermOutline

/-! ## Characters and their offsets -/

namespace Source

/-- The characters of a text that begins at `offset`, each with the offset of its first byte. -/
def offsets (offset : Nat) : Source → List (Nat × Char)
  | [] => []
  | c :: rest => (offset, c) :: offsets (offset + c.utf8Size) rest

theorem offsets_append (offset : Nat) (text more : Source) :
    offsets offset (text ++ more) =
      offsets offset text ++ offsets (offset + text.byteLength) more := by
  induction text generalizing offset with
  | nil => rfl
  | cons c rest ih =>
    rw [List.cons_append, offsets, offsets, ih, byteLength, List.cons_append, Nat.add_assoc]

theorem map_offsets (offset : Nat) (text : Source) : (offsets offset text).map Prod.snd = text := by
  induction text generalizing offset with
  | nil => rfl
  | cons c rest ih => rw [offsets, List.map_cons, ih]

@[simp] theorem length_offsets (offset : Nat) (text : Source) :
    (offsets offset text).length = text.length := by
  rw [← List.length_map (@Prod.snd Nat Char), map_offsets]

theorem mem_offsets {offset : Nat} {text : Source} {entry : Nat × Char}
    (h : entry ∈ offsets offset text) :
    offset ≤ entry.1 ∧ entry.1 < offset + text.byteLength := by
  induction text generalizing offset with
  | nil => cases h
  | cons c rest ih =>
    have size := c.utf8Size_pos
    rw [byteLength]
    rcases List.mem_cons.1 h with rfl | later
    · exact ⟨Nat.le_refl _, by omega⟩
    · have := ih later
      omega

/-- Only the first character of a text begins where the text does. -/
theorem getElem?_offsets {offset number : Nat} {text : Source} {entry : Nat × Char}
    (h : (offsets offset text)[number]? = some entry) : entry.1 = offset ↔ number = 0 := by
  cases text with
  | nil => cases h
  | cons c rest =>
    cases number with
    | zero =>
      cases h
      exact iff_of_true rfl rfl
    | succ number =>
      rw [offsets, List.getElem?_cons_succ] at h
      have size := c.utf8Size_pos
      have later := mem_offsets (List.mem_of_getElem? h)
      omega

theorem countP_offsets {text before inside after : Source}
    (split : text = before ++ inside ++ after) (p : Char → Bool) {q : Nat × Char → Bool}
    (h : ∀ entry, q entry = true ↔
      before.byteLength ≤ entry.1 ∧ entry.1 < (before ++ inside).byteLength ∧ p entry.2 = true) :
    (offsets 0 text).countP q = inside.countP p := by
  have early : (offsets 0 before).countP q = 0 := by
    rw [List.countP_eq_zero]
    intro entry member counted
    have place := mem_offsets member
    have := (h entry).1 counted
    omega
  have late : (offsets (0 + (before ++ inside).byteLength) after).countP q = 0 := by
    rw [List.countP_eq_zero]
    intro entry member counted
    have place := mem_offsets member
    have := (h entry).1 counted
    omega
  have own : (offsets (0 + before.byteLength) inside).countP q = inside.countP p := by
    conv_rhs => rw [← map_offsets (0 + before.byteLength) inside, List.countP_map]
    apply List.countP_congr
    intro entry member
    have place := mem_offsets member
    rw [h entry, byteLength_append]
    constructor
    · exact fun counted => counted.2.2
    · exact fun counted => ⟨by omega, by omega, counted⟩
  rw [split, offsets_append, offsets_append, List.countP_append, List.countP_append, early, late,
    own]
  omega

/-- What a stretch of bytes begins of a text that it ends in or reaches past. -/
theorem charsBegun_append {text more : Source} {bytes : Nat}
    (h : bytes = text.byteLength ∨ text.byteLength ≤ bytes ∧ more = []) :
    charsBegun bytes (text ++ more) = text.length := by
  induction text generalizing bytes with
  | nil =>
    rcases h with rfl | ⟨_, rfl⟩
    · rw [byteLength, charsBegun, List.length_nil]
    · cases bytes <;> rfl
  | cons c rest ih =>
    have size := c.utf8Size_pos
    rw [byteLength] at h
    obtain ⟨less, rfl⟩ := Nat.exists_eq_succ_of_ne_zero (by omega : bytes ≠ 0)
    rw [List.cons_append, charsBegun, ih, List.length_cons]
    exact h.imp (by omega) (And.imp_left (by omega))

theorem dropFinal_append (c : Char) (lead : Source) {tail : Source} (h : tail ≠ []) :
    dropFinal c (lead ++ tail) = lead ++ dropFinal c tail := by
  rw [dropFinal, dropFinal, List.getLast?_append_of_ne_nil _ h, List.dropLast_append_of_ne_nil h]
  split <;> rfl

theorem dropFinal_cases (c : Char) (text : Source) :
    text = dropFinal c text ++ [c] ∨ text = dropFinal c text ∧ text.getLast? ≠ some c := by
  rw [dropFinal]
  by_cases final : text.getLast? = some c
  · rw [if_pos final]
    obtain ⟨front, rfl⟩ := List.getLast?_eq_some_iff.1 final
    exact Or.inl (by rw [List.dropLast_concat])
  · rw [if_neg final]
    exact Or.inr ⟨rfl, final⟩

end Source

/-! ## Placements -/

/-- What stands in a text between two line feeds, or between one and an end of the text. -/
structure IsRow (text above row below : Source) : Prop where
  split : text = above ++ row ++ below
  whole : WholeText above
  unbroken : '\n' ∉ row
  ending : ∀ c ∈ below.head?, c = '\n'

def Span.Has (span : Span) (offset : Nat) : Prop := span.start ≤ offset ∧ offset < span.stop

instance (span : Span) (offset : Nat) : Decidable (span.Has offset) :=
  inferInstanceAs (Decidable (_ ∧ _))

/-- The placement that counting the characters of a text leads to, for a span on the row after
`above`. -/
structure Placement.Counts (text above row : Source) (span : Span) (placement : Placement) :
    Prop where
  line : placement.line = 1 + (text.offsets 0).countP fun entry =>
    decide (entry.2 = '\n' ∧ entry.1 < span.start)
  lineText : row = placement.lineText ++ ['\r'] ∨
    row = placement.lineText ∧ row.getLast? ≠ some '\r'
  column : placement.column = 1 + (text.offsets 0).countP fun entry =>
    decide (above.byteLength ≤ entry.1 ∧ entry.1 < span.start)
  width : placement.width = max 1 ((text.offsets 0).countP fun entry =>
    decide (span.Has entry.1 ∧ above.byteLength ≤ entry.1 ∧
      entry.1 < (above ++ placement.lineText).byteLength))

/-- A span cut out of its row. -/
structure Span.Sits (text above lead inside tail below : Source) (span : Span) : Prop where
  row : IsRow text above (lead ++ (inside ++ tail)) below
  nonempty : inside ≠ []
  start : span.start = (above ++ lead).byteLength
  stop : span.stop = (above ++ lead ++ inside).byteLength

theorem Span.Marks.sits {span : Span} {text : Source} (h : span.Marks text) :
    ∃ above lead inside tail below, span.Sits text above lead inside tail below := by
  obtain ⟨before, inside, after, rfl, nonempty, unbroken, start, stop⟩ := h
  obtain ⟨above, lead, rfl, whole, lead_unbroken⟩ := exists_above before
  obtain ⟨tail, below, rfl, tail_unbroken, ending⟩ := exists_below after
  refine ⟨above, lead, inside, tail, below, ⟨by simp, whole, ?_, ending⟩, nonempty, start, stop⟩
  simp [lead_unbroken, unbroken, tail_unbroken]

/-- What a row shows from a span on: some of the span, or all of it and more. -/
structure Shows (inside tail seen hidden more : Source) : Prop where
  cut : inside = seen ++ hidden
  shown : Source.dropFinal '\r' (inside ++ tail) = seen ++ more
  one : hidden = [] ∨ more = []

theorem exists_shows (inside tail : Source) : ∃ seen hidden more,
    Shows inside tail seen hidden more := by
  by_cases last : tail = []
  · subst last
    rcases Source.dropFinal_cases '\r' inside with cut | ⟨same, _⟩
    · exact ⟨_, ['\r'], [], cut, by simp, Or.inr rfl⟩
    · exact ⟨inside, [], [], by simp, by simp [← same], Or.inl rfl⟩
  · exact ⟨inside, [], _, by simp, Source.dropFinal_append _ _ last, Or.inl rfl⟩

section Sitting

variable {text above lead inside tail below seen hidden more : Source} {diagnostic : Diagnostic}
  (sits : diagnostic.span.Sits text above lead inside tail below)
  (shows : Shows inside tail seen hidden more)

include sits shows

theorem Span.Sits.shown_row :
    Source.dropFinal '\r' (lead ++ (inside ++ tail)) = lead ++ (seen ++ more) := by
  have nonempty : inside ++ tail ≠ [] := by
    simp [sits.nonempty]
  rw [Source.dropFinal_append _ _ nonempty, shows.shown]

theorem Span.Sits.place_eq : diagnostic.place text =
    { line := above.count '\n' + 1
      column := lead.length + 1
      lineText := lead ++ (seen ++ more)
      width := max 1 seen.length } := by
  have bytes : diagnostic.span.length = inside.byteLength := by
    rw [Span.length, sits.start, sits.stop, Source.byteLength_append (above ++ lead)]
    omega
  have begun : Source.charsBegun diagnostic.span.length (seen ++ more) = seen.length := by
    apply Source.charsBegun_append
    rw [bytes, shows.cut, Source.byteLength_append]
    rcases shows.one with rfl | rfl
    · exact Or.inl rfl
    · exact Or.inr ⟨Nat.le_add_right _ _, rfl⟩
  rw [sits.row.split, place_row sits.row.whole sits.row.unbroken sits.row.ending
    (sits.shown_row shows) sits.start, begun]

theorem Span.Sits.counts :
    (diagnostic.place text).Counts text above (lead ++ (inside ++ tail)) diagnostic.span := by
  have unbroken : '\n' ∉ lead := fun feed => sits.row.unbroken (List.mem_append_left _ feed)
  have lineText := Source.dropFinal_cases '\r' (lead ++ (inside ++ tail))
  rw [sits.shown_row shows] at lineText
  rw [sits.place_eq shows]
  refine ⟨?_, lineText, ?_, ?_⟩
  · have split : text = [] ++ (above ++ lead) ++ (inside ++ tail ++ below) := by
      simp [sits.row.split]
    rw [Source.countP_offsets split (· == '\n')]
    · rw [← List.count, List.count_append, List.count_eq_zero.2 unbroken]
      exact Nat.add_comm _ 1
    · simp [sits.start, Source.byteLength, and_comm]
  · have split : text = above ++ lead ++ (inside ++ tail ++ below) := by
      simp [sits.row.split]
    rw [Source.countP_offsets split fun _ => true]
    · rw [List.countP_true]
      exact Nat.add_comm _ 1
    · simp [sits.start]
  · have split : text = above ++ lead ++ seen ++ (hidden ++ tail ++ below) := by
      simp [sits.row.split, shows.cut]
    rw [Source.countP_offsets split fun _ => true]
    · rw [List.countP_true]
    · intro entry
      simp only [decide_eq_true_eq, Span.Has, sits.start, sits.stop, shows.cut,
        Source.byteLength_append, and_true]
      rcases shows.one with rfl | rfl <;> simp only [Source.byteLength] <;> omega

end Sitting

/-! ## Carets -/

/-- The print of a diagnostic ends with a line and, below it, with carets under some of the places
on that line. -/
def Diagnostic.Underlines (diagnostic : Diagnostic) (shown : Source) (marked : Nat → Prop) : Prop :=
  ∃ heading quoted underline gutter, diagnostic.render .plain =
      heading ++ '\n' :: (quoted ++ '\n' :: underline) ∧ '\n' ∉ quoted ∧ '\n' ∉ underline ∧
    (∀ place : Nat, quoted[gutter + place]? = shown[place]?) ∧
    ∀ column : Nat, underline[column]? = some '^' ↔ ∃ place, column = gutter + place ∧ marked place

theorem not_mem_digits {c : Char} (h : c.isDigit = false) (number : Nat) : c ∉ digits number := by
  intro member
  have digit := Nat.isDigit_of_mem_toDigits (by decide) (by decide) member
  rw [h] at digit
  cases digit

theorem getElem?_carets {front : Source} (h : '^' ∉ front) (width column : Nat) :
    (front ++ List.replicate width '^')[column]? = some '^' ↔
      front.length ≤ column ∧ column < front.length + width := by
  by_cases early : column < front.length
  · rw [List.getElem?_append_left early]
    constructor
    · exact fun found => absurd (List.mem_of_getElem? found) h
    · omega
  · rw [List.getElem?_append_right (by omega), List.getElem?_replicate]
    by_cases among : column - front.length < width
    · rw [if_pos among]
      exact iff_of_true rfl (by omega)
    · rw [if_neg among]
      exact iff_of_false nofun (by omega)

theorem not_mem_blanks {c : Char} (h : c ≠ ' ') (count : Nat) : c ∉ blanks count :=
  fun member => h (List.eq_of_mem_replicate member)

namespace Placement

/-- How far a printed line stands in. -/
def gutter (placement : Placement) : Nat := (digits placement.line).length + 3

def quoted (placement : Placement) : Source :=
  digits placement.line ++ [' '] ++ ['|'] ++
    if placement.lineText.isEmpty then [] else ' ' :: placement.lineText

def underline (placement : Placement) : Source :=
  blanks (digits placement.line).length ++ [' '] ++ ['|'] ++ [' ']
    ++ blanks (placement.column - 1) ++ List.replicate placement.width '^'

theorem render_plain (placement : Placement) (file : String) : ∃ place bar,
    placement.render file .plain = [place, bar, placement.quoted, placement.underline] :=
  ⟨_, _, rfl⟩

theorem getElem?_quoted (placement : Placement) (place : Nat) :
    placement.quoted[placement.gutter + place]? = placement.lineText[place]? := by
  cases shown : placement.lineText with
  | nil =>
    rw [quoted, gutter, shown, List.getElem?_nil, List.getElem?_eq_none]
    simp
    omega
  | cons c rest =>
    have split : placement.quoted = digits placement.line ++ [' ', '|', ' '] ++ c :: rest := by
      simp [quoted, shown]
    rw [split, gutter, List.getElem?_append_right (by simp)]
    simp

theorem getElem?_underline (placement : Placement) (column : Nat) :
    placement.underline[column]? = some '^' ↔ ∃ place, column = placement.gutter + place ∧
      placement.column - 1 ≤ place ∧ place < placement.column - 1 + placement.width := by
  have front : '^' ∉ blanks (digits placement.line).length ++ [' '] ++ ['|'] ++ [' '] ++
      blanks (placement.column - 1) := by
    simp [not_mem_blanks]
  have size : (blanks (digits placement.line).length ++ [' '] ++ ['|'] ++ [' '] ++
      blanks (placement.column - 1)).length = placement.gutter + (placement.column - 1) := by
    simp [blanks, gutter]
    omega
  rw [underline, getElem?_carets front, size]
  constructor
  · exact fun among => ⟨column - placement.gutter, by omega, by omega, by omega⟩
  · rintro ⟨place, rfl, low, high⟩
    omega

theorem unbroken_rows {placement : Placement} (h : '\n' ∉ placement.lineText) :
    '\n' ∉ placement.quoted ∧ '\n' ∉ placement.underline := by
  have number : '\n' ∉ digits placement.line := not_mem_digits (by decide) _
  constructor
  · rw [quoted]
    split <;> simp [number, h]
  · simp [underline, not_mem_blanks]

end Placement

theorem render_underlines {diagnostic : Diagnostic} {placement : Placement}
    (h : diagnostic.placement = some placement) (unbroken : '\n' ∉ placement.lineText) :
    diagnostic.Underlines placement.lineText fun place => placement.column - 1 ≤ place ∧
      place < placement.column - 1 + placement.width := by
  obtain ⟨place, bar, rows⟩ := placement.render_plain diagnostic.file
  obtain ⟨quoted, underline⟩ := Placement.unbroken_rows unbroken
  refine ⟨['\n'].intercalate
      [renderHeader diagnostic.code .plain ++ [' '] ++ diagnostic.note.toList, place, bar],
    placement.quoted, placement.underline, placement.gutter, ?_, quoted, underline,
    placement.getElem?_quoted, placement.getElem?_underline⟩
  rw [Diagnostic.render, h]
  simp [rows, List.intercalate_cons_cons]

/-- Where the characters of a row lie, seen from a span on it. -/
theorem Span.Sits.entry {text above lead inside tail below : Source} {span : Span}
    (h : span.Sits text above lead inside tail below) {place : Nat} {entry : Nat × Char}
    (found : ((lead ++ (inside ++ tail)).offsets above.byteLength)[place]? = some entry) :
    (span.Has entry.1 ↔ lead.length ≤ place ∧ place < lead.length + inside.length) ∧
      (entry.1 = span.start ↔ place = lead.length) := by
  have start := h.start
  have stop := h.stop
  rw [Source.byteLength_append] at start stop
  rw [Source.byteLength_append, ← start] at stop
  rw [Source.offsets_append, ← start] at found
  rw [Span.Has]
  by_cases early : place < lead.length
  · rw [List.getElem?_append_left (by simpa using early)] at found
    have before := Source.mem_offsets (List.mem_of_getElem? found)
    omega
  · rw [List.getElem?_append_right (by simpa using early), Source.length_offsets] at found
    have first := Source.getElem?_offsets found
    rw [Source.offsets_append] at found
    by_cases within : place - lead.length < inside.length
    · rw [List.getElem?_append_left (by simpa using within)] at found
      have among := Source.mem_offsets (List.mem_of_getElem? found)
      omega
    · rw [List.getElem?_append_right (by simpa using within)] at found
      have behind := Source.mem_offsets (List.mem_of_getElem? found)
      omega

/-- The reported characters of a row that it shows, and the first of them in any case. -/
theorem Span.Sits.marked_iff {text above lead inside tail below seen hidden more : Source}
    {span : Span} (h : span.Sits text above lead inside tail below)
    (shows : Shows inside tail seen hidden more) (place : Nat) :
    (∃ entry, ((lead ++ (inside ++ tail)).offsets above.byteLength)[place]? = some entry ∧
        span.Has entry.1 ∧ (place < (lead ++ (seen ++ more)).length ∨ entry.1 = span.start)) ↔
      lead.length ≤ place ∧ place < lead.length + max 1 seen.length := by
  have nonempty := List.length_pos_iff.2 h.nonempty
  have size : inside.length = seen.length + hidden.length := by
    rw [shows.cut, List.length_append]
  have none : hidden.length = 0 ∨ more.length = 0 :=
    shows.one.imp List.length_eq_zero_iff.2 List.length_eq_zero_iff.2
  simp only [List.length_append]
  constructor
  · rintro ⟨entry, found, has, marked⟩
    obtain ⟨inner, first⟩ := h.entry found
    rw [inner] at has
    rw [first] at marked
    omega
  · intro among
    have short : place < ((lead ++ (inside ++ tail)).offsets above.byteLength).length := by
      simp only [Source.length_offsets, List.length_append]
      omega
    have found := List.getElem?_eq_getElem short
    obtain ⟨inner, first⟩ := h.entry found
    exact ⟨_, found, inner.2 (by omega), by rw [first]; omega⟩

theorem Diagnostic.Underlines.congr {diagnostic : Diagnostic} {shown : Source}
    {marked others : Nat → Prop} (h : diagnostic.Underlines shown marked)
    (same : ∀ place, marked place ↔ others place) : diagnostic.Underlines shown others := by
  rwa [show others = marked from funext fun place => propext (same place).symm]

/-- A diagnostic as it was raised and as a reader gets it. -/
def Diagnostic.PlacedIn (text : Source) (raised placed : Diagnostic) : Prop :=
  ∃ placement above row below, placed = { raised with placement := some placement } ∧
    IsRow text above row below ∧ above.byteLength ≤ raised.span.start ∧
    raised.span.stop ≤ (above ++ row).byteLength ∧ placement.Counts text above row raised.span ∧
    placed.Underlines placement.lineText fun place =>
      ∃ entry, (row.offsets above.byteLength)[place]? = some entry ∧ raised.span.Has entry.1 ∧
        (place < placement.lineText.length ∨ entry.1 = raised.span.start)

theorem Diagnostic.placedIn {text : Source} {diagnostic : Diagnostic}
    (unplaced : diagnostic.placement = none) (marks : diagnostic.span.Marks text) :
    diagnostic.PlacedIn text (diagnostic.fill text) := by
  obtain ⟨above, lead, inside, tail, below, sits⟩ := marks.sits
  obtain ⟨seen, hidden, more, shows⟩ := exists_shows inside tail
  have filled := Diagnostic.fill_eq unplaced text
  have counts := sits.counts shows
  refine ⟨diagnostic.place text, above, lead ++ (inside ++ tail), below, filled, sits.row, ?_, ?_,
    counts, ?_⟩
  · rw [sits.start, Source.byteLength_append]
    exact Nat.le_add_right _ _
  · rw [sits.stop]
    simp only [Source.byteLength_append]
    omega
  · have unbroken : '\n' ∉ (diagnostic.place text).lineText := by
      have feedless := sits.row.unbroken
      rcases counts.lineText with ending | ⟨same, _⟩
      · rw [ending, List.mem_append, not_or] at feedless
        exact feedless.1
      · rwa [same] at feedless
    refine (render_underlines (by rw [filled]) unbroken).congr ?_
    intro other
    rw [sits.place_eq shows]
    exact (sits.marked_iff shows other).symm

/-- Whatever a document is refused for, a reader is sent where it stands. -/
theorem parse_error_placed {document : Document} {settings : Settings} {failure : Failure}
    (h : document.parse settings = .error failure) :
    ∃ report : Report, failure = .rejected report ∧
      List.Forall₂ (Diagnostic.PlacedIn document.text) report.toList
        (report.fill document.text).toList := by
  obtain ⟨report, same, listed⟩ := parse_refused h
  refine ⟨report, same, ?_⟩
  rw [Report.toList_fill, List.forall₂_map_right_iff, List.forall₂_same]
  intro diagnostic member
  rw [listed, mem_sortByStart] at member
  obtain ⟨finding, found, rfl⟩ := List.mem_map.1 member
  exact Diagnostic.placedIn rfl (findings_cover document settings finding found).2.marks

/-- The carriage return at the end of the text is reported and not shown. -/
theorem parse_error_placed_at : ∃ report : Report,
    Document.parse ⟨"f", ['a', '\r', '\n', '<', 'é', '>', ' ', '@', '@', '\r']⟩ .default =
        .error (.rejected report) ∧
      (report.fill ['a', '\r', '\n', '<', 'é', '>', ' ', '@', '@', '\r']).toList.map
        Diagnostic.placement = [some ⟨2, 5, ['<', 'é', '>', ' ', '@', '@'], 2⟩] ∧
      List.Forall₂ (Diagnostic.PlacedIn ['a', '\r', '\n', '<', 'é', '>', ' ', '@', '@', '\r'])
        report.toList
        (report.fill ['a', '\r', '\n', '<', 'é', '>', ' ', '@', '@', '\r']).toList := by
  have refused : Document.parse
      ⟨"f", ['a', '\r', '\n', '<', 'é', '>', ' ', '@', '@', '\r']⟩ .default =
      .error (.rejected ⟨Finding.diagnostic ⟨.unknownText ['@', '@', '\r'], ⟨8, 11⟩⟩ "f", []⟩) := by
    decide +kernel
  obtain ⟨report, same, placed⟩ := parse_error_placed refused
  cases same
  exact ⟨_, refused, by decide +kernel, placed⟩

end TermOutline
