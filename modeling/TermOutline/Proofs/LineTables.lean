import Mathlib.Data.List.DropRight
import TermOutline.Proofs.Positions

/-! # Line tables and plain scans

The offsets of a table are found by a search, and bytes that fall inside a character are offsets
too. Still every answer is the one that counting line feeds byte by byte gives. Placing a diagnostic
goes through the text of its line, which has lost its carriage return, and so does not always agree.
-/
namespace TermOutline

/-! ## Bytes -/

namespace Source

/-- The text in UTF-8. -/
def bytes (text : Source) : List UInt8 := text.flatMap String.utf8EncodeChar

/-- The byte of a line feed. -/
def lineFeed : UInt8 := 10

theorem lineFeed_not_mem {c : Char} (h : c ≠ '\n') : lineFeed ∉ String.utf8EncodeChar c := by
  have differ : c.val.toNat ≠ 10 := by
    intro same
    apply h
    apply Char.ext
    exact UInt32.toNat_inj.1 same
  have other : ∀ value, value % 256 ≠ 10 → lineFeed ≠ UInt8.ofNat value := by
    intro value ne same
    apply ne
    rw [← UInt8.toNat_ofNat', ← same]
    rfl
  rw [String.utf8EncodeChar]
  split
  · simp only [List.mem_singleton]
    exact other _ (by omega)
  · split
    · simp only [List.mem_cons, List.not_mem_nil, or_false, not_or]
      exact ⟨other _ (by omega), other _ (by omega)⟩
    · split
      · simp only [List.mem_cons, List.not_mem_nil, or_false, not_or]
        exact ⟨other _ (by omega), other _ (by omega), other _ (by omega)⟩
      · simp only [List.mem_cons, List.not_mem_nil, or_false, not_or]
        exact ⟨other _ (by omega), other _ (by omega), other _ (by omega), other _ (by omega)⟩

theorem bytes_cons (c : Char) (text : Source) :
    bytes (c :: text) = String.utf8EncodeChar c ++ text.bytes := List.flatMap_cons

theorem bytes_append (text more : Source) : bytes (text ++ more) = text.bytes ++ more.bytes :=
  List.flatMap_append

@[simp] theorem length_bytes (text : Source) : text.bytes.length = text.byteLength := by
  induction text with
  | nil => rfl
  | cons c rest ih =>
    rw [bytes_cons, List.length_append, String.length_utf8EncodeChar, ih, byteLength]

theorem count_bytes (text : Source) : text.bytes.count lineFeed = text.count '\n' := by
  induction text with
  | nil => rfl
  | cons c rest ih =>
    rw [bytes_cons, List.count_append, ih]
    by_cases feed : c = '\n'
    · rw [feed, List.count_cons_self]
      exact Nat.add_comm 1 _
    · rw [List.count_eq_zero.2 (lineFeed_not_mem feed), List.count_cons_of_ne feed, Nat.zero_add]

theorem lineFeed_not_mem_bytes {text : Source} (h : '\n' ∉ text) : lineFeed ∉ text.bytes := by
  rw [← List.count_eq_zero, count_bytes]
  exact List.count_eq_zero.2 h

theorem feed_before {above : Source} (whole : WholeText above) (more : Source) :
    above.byteLength = 0 ∨ (above ++ more).bytes[above.byteLength - 1]? = some lineFeed := by
  rcases whole with rfl | feed
  · exact Or.inl rfl
  · right
    obtain ⟨front, rfl⟩ := List.getLast?_eq_some_iff.1 feed
    have ended : bytes (front ++ ['\n']) = bytes front ++ [lineFeed] := bytes_append front ['\n']
    have size : byteLength (front ++ ['\n']) = (bytes front).length + 1 := by
      rw [← length_bytes, ended, List.length_append, List.length_singleton]
    rw [bytes_append, ended, size, Nat.add_sub_cancel, List.append_assoc,
      List.getElem?_append_right (Nat.le_refl _), Nat.sub_self]
    rfl

/-- A text cut at an offset: the characters that end there or before, and the bytes before the
offset of a character that it falls inside. No line starts from the last of these characters on up
to the offset. -/
structure CutAt (text : Source) (offset : Nat) (before after : Source) (inner : List UInt8) :
    Prop where
  split : text = before ++ after
  bytes : text.bytes.take offset = before.bytes ++ inner
  size : offset = before.byteLength + inner.length
  plain : lineFeed ∉ inner
  later : ∀ base, ∀ start ∈ LineTable.startsAfter (base + before.byteLength) after,
    base + offset < start

theorem exists_cutAt {text : Source} {offset : Nat} (h : offset ≤ text.byteLength) :
    ∃ before after inner, CutAt text offset before after inner := by
  induction text generalizing offset with
  | nil =>
    obtain rfl := Nat.le_zero.1 h
    exact ⟨[], [], [], rfl, rfl, rfl, List.not_mem_nil, by simp [LineTable.startsAfter]⟩
  | cons c rest ih =>
    rw [byteLength] at h
    by_cases whole : c.utf8Size ≤ offset
    · obtain ⟨before, after, inner, cut⟩ := @ih (offset - c.utf8Size) (by omega)
      have size := cut.size
      refine ⟨c :: before, after, inner, by rw [cut.split]; rfl, ?_, ?_, cut.plain, ?_⟩
      · rw [bytes_cons, bytes_cons, List.take_append, String.length_utf8EncodeChar, cut.bytes,
          List.take_of_length_le (by rw [String.length_utf8EncodeChar]; exact whole),
          List.append_assoc]
      · rw [byteLength]
        omega
      · intro base start member
        have := cut.later (base + c.utf8Size) start (by
          rw [byteLength, ← Nat.add_assoc] at member
          exact member)
        omega
    · -- the offset falls inside `c`, so that `c` has more than one byte unless the offset is zero
      have inside : c = '\n' → offset = 0 := by
        rintro rfl
        have one : Char.utf8Size '\n' = 1 := rfl
        omega
      refine ⟨[], c :: rest, (String.utf8EncodeChar c).take offset, rfl, ?_, ?_, ?_, ?_⟩
      · rw [bytes_cons, List.take_append_of_le_length (by rw [String.length_utf8EncodeChar]; omega)]
        rfl
      · rw [List.length_take, String.length_utf8EncodeChar, byteLength]
        omega
      · by_cases feed : c = '\n'
        · rw [inside feed]
          exact List.not_mem_nil
        · exact fun member => lineFeed_not_mem feed (List.mem_of_mem_take member)
      · intro base start member
        have next : base + c.utf8Size ≤ start := by
          rw [LineTable.startsAfter] at member
          split at member
          · rcases List.mem_cons.1 member with rfl | below
            · exact Nat.le_refl _
            · exact Nat.le_of_lt (LineTable.mem_startsAfter below).1
          · exact Nat.le_of_lt (LineTable.mem_startsAfter member).1
        omega

theorem takeBytes?_past {text : Source} {bytes : Nat} (h : text.byteLength < bytes) :
    takeBytes? bytes text = none := by
  induction text generalizing bytes with
  | nil =>
    obtain ⟨less, rfl⟩ := Nat.exists_eq_succ_of_ne_zero (Nat.ne_of_gt h)
    rfl
  | cons c rest ih =>
    rw [byteLength] at h
    obtain ⟨less, rfl⟩ := Nat.exists_eq_succ_of_ne_zero (by omega : bytes ≠ 0)
    rw [takeBytes?, if_pos (by omega), ih (by omega)]
    rfl

/-- A text is a row, or a row with its line feed and a text below. -/
theorem row_induction {motive : Source → Prop} (last : ∀ row, '\n' ∉ row → motive row)
    (line : ∀ row rest, '\n' ∉ row → motive rest → motive (row ++ '\n' :: rest)) (text : Source) :
    motive text := by
  induction feeds : text.count '\n' generalizing text with
  | zero => exact last text (List.count_eq_zero.1 feeds)
  | succ number ih =>
    obtain ⟨row, after, rfl, unbroken, ending⟩ := exists_below text
    rw [List.count_append, List.count_eq_zero.2 unbroken, Nat.zero_add] at feeds
    cases after with
    | nil => cases feeds
    | cons c rest =>
      obtain rfl := ending c rfl
      rw [List.count_cons_self, Nat.succ.injEq] at feeds
      exact line row rest unbroken (ih rest feeds)

theorem count_row {row : Source} (h : '\n' ∉ row) (rest : Source) :
    (row ++ '\n' :: rest).count '\n' = rest.count '\n' + 1 := by
  rw [List.count_append, List.count_eq_zero.2 h, List.count_cons_self, Nat.zero_add]

theorem exists_row {text : Source} {number : Nat} (h : number ≤ text.count '\n') :
    ∃ above row below, IsRow text above row below ∧ above.count '\n' = number ∧
      (text.splitOn '\n')[number]? = some row := by
  induction text using row_induction generalizing number with
  | last row unbroken =>
    rw [List.count_eq_zero.2 unbroken, Nat.le_zero] at h
    subst h
    refine ⟨[], row, [], ⟨by simp, Or.inl rfl, unbroken, by simp⟩, rfl, ?_⟩
    rw [List.splitOn_eq_singleton unbroken, List.getElem?_cons_zero]
  | line first rest unbroken ih =>
    rw [count_row unbroken] at h
    rw [List.splitOn_append_cons_self_of_not_mem unbroken]
    cases number with
    | zero => exact ⟨[], first, '\n' :: rest, ⟨rfl, Or.inl rfl, unbroken, by simp⟩, rfl, rfl⟩
    | succ number =>
      obtain ⟨above, row, below, isRow, count, piece⟩ := ih (Nat.le_of_succ_le_succ h)
      have whole : WholeText (first ++ '\n' :: above) := by
        right
        rcases isRow.whole with rfl | feed
        · exact List.getLast?_concat
        · rw [List.getLast?_append, List.getLast?_cons, feed]
          rfl
      refine ⟨first ++ '\n' :: above, row, below,
        ⟨?_, whole, isRow.unbroken, isRow.ending⟩, ?_, piece⟩
      · simp [isRow.split]
      · rw [count_row unbroken, count]

theorem length_splitOn (text : Source) : (text.splitOn '\n').length = text.count '\n' + 1 := by
  induction text using row_induction with
  | last row unbroken =>
    rw [List.splitOn_eq_singleton unbroken, List.count_eq_zero.2 unbroken, List.length_singleton]
  | line row rest unbroken ih =>
    rw [List.splitOn_append_cons_self_of_not_mem unbroken, List.length_cons, ih,
      count_row unbroken]

end Source

/-! ## Searching the table -/

/-- What may be answered to a search among rising values: a place of the value, or the place at
which it is missing. -/
inductive Answers (values : List Nat) (value : Nat) : Except Nat Nat → Prop where
  | found {place : Nat} (here : values[place]? = some value) : Answers values value (.ok place)
  | missing {place : Nat} (bound : place ≤ values.length)
      (less : ∀ other ∈ values.take place, other < value)
      (more : ∀ other ∈ values.drop place, value < other) : Answers values value (.error place)

/-- The last line that starts up to an offset, by the answer to a search for the offset. -/
def answeredLine : Except Nat Nat → Nat
  | .ok place => place
  | .error place => place - 1

theorem exists_answer {values : List Nat} (rising : values.Pairwise (· < ·)) (value : Nat) :
    ∃ answer, Answers values value answer := by
  induction values with
  | nil => exact ⟨.error 0, .missing (Nat.le_refl 0) (by simp) (by simp)⟩
  | cons first rest ih =>
    obtain ⟨above, others⟩ := List.pairwise_cons.1 rising
    rcases Nat.lt_trichotomy first value with less | rfl | more
    · obtain ⟨answer, h⟩ := ih others
      cases h with
      | found here => exact ⟨.ok _, .found (List.getElem?_cons_succ.trans here)⟩
      | @missing place bound before after =>
        refine ⟨.error (place + 1), .missing (Nat.succ_le_succ bound) ?_ after⟩
        rw [List.take_succ_cons]
        exact List.forall_mem_cons.2 ⟨less, before⟩
    · exact ⟨.ok 0, .found rfl⟩
    · refine ⟨.error 0, .missing (Nat.zero_le _) (by simp) (List.forall_mem_cons.2 ⟨more, ?_⟩)⟩
      intro other member
      exact Nat.lt_trans more (above other member)

theorem countP_all_le {values : List Nat} {value : Nat} (h : ∀ other ∈ values, other < value) :
    values.countP (· ≤ value) = values.length := by
  rw [List.countP_eq_length]
  intro other member
  exact decide_eq_true (Nat.le_of_lt (h other member))

theorem countP_none_le {values : List Nat} {value : Nat} (h : ∀ other ∈ values, value < other) :
    values.countP (· ≤ value) = 0 := by
  rw [List.countP_eq_zero]
  intro other member
  simpa using h other member

theorem countP_of_found {values : List Nat} {value place : Nat} (rising : values.Pairwise (· < ·))
    (here : values[place]? = some value) : values.countP (· ≤ value) = place + 1 := by
  obtain ⟨bound, rfl⟩ := List.getElem?_eq_some_iff.1 here
  have split := List.take_append_drop place values
  rw [List.drop_eq_getElem_cons bound] at split
  rw [← split, List.pairwise_append, List.pairwise_cons] at rising
  obtain ⟨_, ⟨more, _⟩, less⟩ := rising
  have before := countP_all_le fun other member => less other member _ List.mem_cons_self
  rw [List.length_take, Nat.min_eq_left (Nat.le_of_lt bound)] at before
  calc values.countP (· ≤ values[place])
      = (values.take place ++ values[place] :: values.drop (place + 1)).countP
          (· ≤ values[place]) := by rw [split]
    _ = place + 1 := by
      rw [List.countP_append, List.countP_cons_of_pos (by simp), before, countP_none_le more]

theorem countP_of_missing {values : List Nat} {value place : Nat} (bound : place ≤ values.length)
    (less : ∀ other ∈ values.take place, other < value)
    (more : ∀ other ∈ values.drop place, value < other) : values.countP (· ≤ value) = place := by
  rw [← List.take_append_drop place values, List.countP_append, countP_all_le less,
    countP_none_le more, List.length_take]
  omega

namespace LineTable

theorem startsAfter_rising (offset : Nat) (text : Source) :
    (startsAfter offset text).Pairwise (· < ·) := by
  induction text generalizing offset with
  | nil => exact .nil
  | cons c rest ih =>
    rw [startsAfter]
    split
    · exact .cons (fun start member => (mem_startsAfter member).1) (ih _)
    · exact ih _

theorem starts_rising (text : Source) : (ofSource text).starts.Pairwise (· < ·) :=
  .cons (fun _ member => (mem_startsAfter member).1) (startsAfter_rising 0 text)

theorem locate_min (table : LineTable) (offset : Nat) :
    table.locate (min offset table.size) = table.locate offset := by
  rw [locate, locate, Nat.min_assoc, Nat.min_self]

/-- Any search finds the line that is located, and is never told that an offset comes before the
start of the first line. -/
theorem locate_answered (text : Source) (offset : Nat) :
    (∃ answer, Answers (ofSource text).starts (min offset text.byteLength) answer) ∧
      ∀ answer, Answers (ofSource text).starts (min offset text.byteLength) answer →
        answeredLine answer = ((ofSource text).locate offset).line ∧ answer ≠ .error 0 := by
  refine ⟨exists_answer (starts_rising text) _, ?_⟩
  intro answer h
  have line : ((ofSource text).locate offset).line =
      (ofSource text).starts.countP (· ≤ min offset text.byteLength) - 1 := rfl
  cases h with
  | found here =>
    rw [line, countP_of_found (starts_rising text) here]
    exact ⟨rfl, by simp⟩
  | missing bound less more =>
    have count := countP_of_missing bound less more
    rw [line, count]
    refine ⟨rfl, ?_⟩
    rintro ⟨⟩
    rw [ofSource, List.countP_cons_of_pos (by simp)] at count
    cases count

end LineTable

/-! ## Agreement with a scan -/

/-- Where a scan of the first `offset` bytes ends: behind the line feeds among them, the last of
which is right before `start`. -/
structure Position.Scans (bytes : List UInt8) (offset start : Nat) (position : Position) :
    Prop where
  line : position.line = (bytes.take offset).count Source.lineFeed
  column : position.column = offset - start
  reached : start ≤ offset
  feed : start = 0 ∨ bytes[start - 1]? = some Source.lineFeed
  last : Source.lineFeed ∉ (bytes.take offset).drop start

/-- Lines first, then columns. -/
def Position.UpTo (position other : Position) : Prop :=
  position.line < other.line ∨ position.line = other.line ∧ position.column ≤ other.column

namespace LineTable

theorem locate_scans (text : Source) (offset : Nat) :
    ∃ start, (ofSource text).starts[((ofSource text).locate offset).line]? = some start ∧
      ((ofSource text).locate offset).Scans text.bytes (min offset text.byteLength) start := by
  have clamped : (ofSource text).locate (min offset text.byteLength) =
      (ofSource text).locate offset := locate_min (ofSource text) offset
  have bound := Nat.min_le_right offset text.byteLength
  rw [← clamped]
  generalize min offset text.byteLength = offset at bound
  obtain ⟨before, after, inner, cut⟩ := Source.exists_cutAt bound
  obtain ⟨above, lead, rfl, whole, unbroken⟩ := exists_above before
  obtain ⟨rfl, bytes, size, plain, later⟩ := cut
  have later := later 0
  rw [Nat.zero_add, Nat.zero_add] at later
  have behind : above.byteLength ≤ offset := by
    rw [Source.byteLength_append] at size
    omega
  rw [locate_within whole unbroken (by omega) bound later]
  refine ⟨above.byteLength, ?_, ?_, rfl, behind, ?_, ?_⟩
  · rw [List.append_assoc]
    exact (starts_row whole _).1
  · rw [bytes, List.count_append, Source.count_bytes, List.count_eq_zero.2 plain, List.count_append,
      List.count_eq_zero.2 unbroken]
    rfl
  · rw [List.append_assoc]
    exact Source.feed_before whole _
  · rw [bytes, Source.bytes_append, List.append_assoc, ← Source.length_bytes, List.drop_left]
    simp [Source.lineFeed_not_mem_bytes unbroken, plain]

theorem locate_mono (table : LineTable) {offset later : Nat} (h : offset ≤ later) :
    (table.locate offset).UpTo (table.locate later) := by
  have clamped : min offset table.size ≤ min later table.size := by omega
  have lines : table.starts.countP (· ≤ min offset table.size) ≤
      table.starts.countP (· ≤ min later table.size) := by
    apply List.countP_mono_left
    intro start _
    simp only [decide_eq_true_eq]
    omega
  rcases Nat.lt_or_eq_of_le (Nat.sub_le_sub_right lines 1) with less | same
  · exact Or.inl less
  · refine Or.inr ⟨same, ?_⟩
    simp only [locate, same]
    exact Nat.sub_le_sub_right clamped _

theorem lineCount_eq (text : Source) :
    (ofSource text).lineCount = text.bytes.count Source.lineFeed + 1 := by
  rw [lineCount, ofSource, List.length_cons, length_startsAfter, Source.count_bytes]

theorem lineText?_eq (text : Source) (line : Nat) :
    (ofSource text).lineText? text line =
      (text.splitOn '\n')[line]?.map (Source.dropFinal '\r') := by
  by_cases bound : line ≤ text.count '\n'
  · obtain ⟨above, row, below, ⟨rfl, whole, unbroken, ending⟩, rfl, piece⟩ :=
      Source.exists_row bound
    rw [lineText?_row whole unbroken ending, piece, Option.map_some]
  · have none : (ofSource text).starts[line]? = none := by
      rw [List.getElem?_eq_none_iff, ofSource, List.length_cons, length_startsAfter]
      omega
    have past : (text.splitOn '\n')[line]? = Option.none := by
      rw [List.getElem?_eq_none_iff, Source.length_splitOn]
      omega
    rw [lineText?, none, past]
    rfl

theorem lineText?_isSome (text : Source) (line : Nat) :
    ((ofSource text).lineText? text line).isSome = true ↔ line < (ofSource text).lineCount := by
  rw [lineText?_eq, Option.isSome_map, lineCount_eq, Source.count_bytes, ← Source.length_splitOn]
  simp

end LineTable

/-- The table of a text agrees with a scan of its bytes about every offset and every line. -/
theorem ofSource_scans {text : Source} (small : text.byteLength < UInt32.size) :
    (∀ offset, ∃ start,
      (LineTable.ofSource text).starts[((LineTable.ofSource text).locate offset).line]? =
        some start ∧
      ((LineTable.ofSource text).locate offset).Scans text.bytes (min offset text.byteLength)
        start) ∧
    (∀ offset,
      (∃ answer, Answers (LineTable.ofSource text).starts (min offset text.byteLength) answer) ∧
      ∀ answer, Answers (LineTable.ofSource text).starts (min offset text.byteLength) answer →
        answeredLine answer = ((LineTable.ofSource text).locate offset).line ∧
          answer ≠ .error 0) ∧
    (∀ offset, ((LineTable.ofSource text).locate offset).line < UInt32.size ∧
      ((LineTable.ofSource text).locate offset).column < UInt32.size) ∧
    (∀ offset later, offset ≤ later →
      ((LineTable.ofSource text).locate offset).UpTo ((LineTable.ofSource text).locate later)) ∧
    (LineTable.ofSource text).lineCount = text.bytes.count Source.lineFeed + 1 ∧
    ∀ line, (((LineTable.ofSource text).lineText? text line).isSome = true ↔
        line < (LineTable.ofSource text).lineCount) ∧
      (LineTable.ofSource text).lineText? text line =
        (text.splitOn '\n')[line]?.map (Source.dropFinal '\r') := by
  refine ⟨LineTable.locate_scans text, LineTable.locate_answered text, ?_,
    fun offset later => LineTable.locate_mono _, LineTable.lineCount_eq text,
    fun line => ⟨LineTable.lineText?_isSome text line, LineTable.lineText?_eq text line⟩⟩
  intro offset
  obtain ⟨start, _, scans⟩ := LineTable.locate_scans text offset
  have inside := Nat.min_le_right offset text.byteLength
  have feeds := List.count_le_length (a := Source.lineFeed)
    (l := text.bytes.take (min offset text.byteLength))
  rw [List.length_take, Source.length_bytes, ← scans.line] at feeds
  rw [scans.column]
  omega

/-- A character of two bytes, a return that goes with a line feed, and a line of nothing. -/
theorem ofSource_scans_returns :
    Source.byteLength ['é', '\r', '\n', '\n', 'a'] < UInt32.size ∧
      (∃ start, (LineTable.ofSource ['é', '\r', '\n', '\n', 'a']).starts[0]? = some start ∧
        ((LineTable.ofSource ['é', '\r', '\n', '\n', 'a']).locate 1).Scans
          (Source.bytes ['é', '\r', '\n', '\n', 'a']) 1 start) ∧
      (LineTable.ofSource ['é', '\r', '\n', '\n', 'a']).locate 4 = ⟨1, 0⟩ ∧
      ((LineTable.ofSource ['é', '\r', '\n', '\n', 'a']).locate 4).UpTo
        ((LineTable.ofSource ['é', '\r', '\n', '\n', 'a']).locate 9) ∧
      (LineTable.ofSource ['é', '\r', '\n', '\n', 'a']).lineText? ['é', '\r', '\n', '\n', 'a'] 0 =
        some ['é'] := by
  have small : Source.byteLength ['é', '\r', '\n', '\n', 'a'] < UInt32.size := by decide
  obtain ⟨scans, _, _, mono, _, lines⟩ := ofSource_scans small
  refine ⟨small, scans 1, rfl, mono 4 9 (by decide), ?_⟩
  rw [(lines 0).2]
  rfl

/-! ## Columns -/

theorem rtakeWhile_lead {above lead : Source} (whole : WholeText above) (unbroken : '\n' ∉ lead) :
    (above ++ lead).rtakeWhile (· != '\n') = lead := by
  have all : ∀ c ∈ lead.reverse, (c != '\n') = true := by
    intro c member
    rw [bne_iff_ne]
    rintro rfl
    exact unbroken (List.mem_reverse.1 member)
  have stop : above.reverse.takeWhile (· != '\n') = [] := by
    rcases whole with rfl | feed
    · rfl
    · obtain ⟨front, rfl⟩ := List.getLast?_eq_some_iff.1 feed
      simp
  rw [List.rtakeWhile, List.reverse_append, List.takeWhile_append_of_pos all, stop, List.append_nil,
    List.reverse_reverse]

/-- A row that ends in a carriage return does not show it, so that the place behind the return is
past the end of what is shown. -/
theorem place_behind_return {above front rest : Source} (whole : WholeText above)
    (unbroken : '\n' ∉ front) (ending : ∀ c ∈ rest.head?, c = '\n') {diagnostic : Diagnostic}
    (start : diagnostic.span.start = (above ++ (front ++ ['\r'])).byteLength) :
    (diagnostic.place (above ++ (front ++ ['\r']) ++ rest)).column = 1 := by
  have row : '\n' ∉ front ++ ['\r'] := by
    simp [unbroken]
  have past : front.byteLength < Source.byteLength (front ++ ['\r']) := by
    rw [Source.byteLength_append]
    exact Nat.lt_add_of_pos_right (by decide)
  rw [Diagnostic.place, Diagnostic.placeBy, start, LineTable.locate_row whole row]
  dsimp only
  rw [LineTable.lineText?_row whole row ending, Source.dropFinal_concat, Option.getD_some,
    Source.takeBytes?_past past]
  rfl

theorem lead_ends {above lead : Source} (whole : WholeText above)
    (h : (above ++ lead).getLast? = some '\r') : ∃ front, lead = front ++ ['\r'] := by
  by_cases none : lead = []
  · rw [none, List.append_nil] at h
    rcases whole with rfl | feed
    · cases h
    · rw [h] at feed
      cases feed
  · rw [List.getLast?_append_of_ne_nil _ none] at h
    exact List.getLast?_eq_some_iff.1 h

/-- A place between the carriage return that ends a row and the line feed or the end behind it. -/
def BehindReturn (before after : Source) : Prop :=
  before.getLast? = some '\r' ∧ ∀ c ∈ after.head?, c = '\n'

theorem BehindReturn.column {above lead tail rest : Source}
    (h : BehindReturn (above ++ lead) (tail ++ rest)) (whole : WholeText above)
    (lead_unbroken : '\n' ∉ lead) (tail_unbroken : '\n' ∉ tail)
    (ending : ∀ c ∈ rest.head?, c = '\n') {diagnostic : Diagnostic}
    (start : diagnostic.span.start = (above ++ lead).byteLength) :
    (diagnostic.place (above ++ lead ++ (tail ++ rest))).column = 1 := by
  obtain ⟨last, next⟩ := h
  obtain ⟨front, rfl⟩ := lead_ends whole last
  have unbroken : '\n' ∉ front := fun feed => lead_unbroken (List.mem_append_left _ feed)
  have ends : tail = [] := by
    rcases tail with _ | ⟨c, more⟩
    · rfl
    · obtain rfl := next c rfl
      exact absurd List.mem_cons_self tail_unbroken
  rw [ends, List.nil_append]
  exact place_behind_return whole unbroken ending start

/-- Elsewhere what a row shows begins with all that stands before the place. -/
theorem shows_lead {above lead tail rest : Source}
    (h : ¬BehindReturn (above ++ lead) (tail ++ rest)) (ending : ∀ c ∈ rest.head?, c = '\n') :
    ∃ shown, Source.dropFinal '\r' (lead ++ tail) = lead ++ shown := by
  by_cases ends : tail = []
  · subst ends
    rw [List.append_nil]
    rcases Source.dropFinal_cases '\r' lead with cut | ⟨same, _⟩
    · refine absurd ⟨?_, ending⟩ h
      rw [cut, ← List.append_assoc]
      exact List.getLast?_concat
    · exact ⟨[], by rw [List.append_nil]; exact same.symm⟩
  · exact ⟨_, Source.dropFinal_append _ _ ends⟩

/-- The column counts the characters of the row before the span, and is one behind a carriage return
that ends a row. -/
theorem place_column {before after : Source} {diagnostic : Diagnostic}
    (start : diagnostic.span.start = before.byteLength) :
    (¬BehindReturn before after → (diagnostic.place (before ++ after)).column =
        1 + (before.rtakeWhile (· != '\n')).length) ∧
      (BehindReturn before after → (diagnostic.place (before ++ after)).column = 1) := by
  obtain ⟨above, lead, rfl, whole, lead_unbroken⟩ := exists_above before
  obtain ⟨tail, rest, rfl, tail_unbroken, ending⟩ := exists_below after
  constructor
  · intro visible
    obtain ⟨shown, shows⟩ := shows_lead visible ending
    have unbroken : '\n' ∉ lead ++ tail := by
      simp [lead_unbroken, tail_unbroken]
    rw [rtakeWhile_lead whole lead_unbroken,
      show above ++ lead ++ (tail ++ rest) = above ++ (lead ++ tail) ++ rest by simp,
      place_row whole unbroken ending shows start]
    exact Nat.add_comm _ 1
  · intro hidden
    exact hidden.column whole lead_unbroken tail_unbroken ending start

/-- Before a carriage return, behind a character of two bytes on the second row; and behind a return
that ends the text. -/
theorem place_column_second :
    (⟨4, 5⟩ : Span).start = Source.byteLength ['\n', 'é', 'b'] ∧
      ¬BehindReturn ['\n', 'é', 'b'] ['\r', '\n'] ∧
      (Diagnostic.place ⟨.lexical, "code", "note", "notes", ⟨4, 5⟩, none⟩
        (['\n', 'é', 'b'] ++ ['\r', '\n'])).column = 3 ∧
      BehindReturn ['a', '\r'] [] ∧
      (Diagnostic.place ⟨.lexical, "code", "note", "notes", ⟨2, 2⟩, none⟩
        (['a', '\r'] ++ [])).column = 1 := by
  have before : ¬BehindReturn ['\n', 'é', 'b'] ['\r', '\n'] := by
    simp [BehindReturn]
  have behind : BehindReturn ['a', '\r'] [] := by
    simp [BehindReturn]
  exact ⟨rfl, before, (place_column rfl).1 before, behind, (place_column rfl).2 behind⟩

/-- Behind the carriage return of a row, the column does not count the characters before it. -/
theorem place_column_behind_return :
    (⟨2, 3⟩ : Span).start = Source.byteLength ['a', '\r'] ∧
      (Diagnostic.place ⟨.lexical, "code", "note", "notes", ⟨2, 3⟩, none⟩
        (['a', '\r'] ++ ['\n', 'b'])).column ≠
          1 + (List.rtakeWhile (· != '\n') ['a', '\r']).length := by
  decide

/-! ## Sizes -/

namespace Source

theorem length_le_byteLength (text : Source) : text.length ≤ text.byteLength := by
  induction text with
  | nil => exact Nat.le_refl 0
  | cons c rest ih =>
    have size := c.utf8Size_pos
    rw [List.length_cons, byteLength]
    omega

theorem dropBytes?_within {text rest : Source} {bytes : Nat}
    (h : dropBytes? bytes text = some rest) : rest <:+ text := by
  fun_induction dropBytes? bytes text with
  | case1 text =>
    obtain rfl := Option.some.inj h
    exact List.suffix_rfl
  | case2 => cases h
  | case3 bytes c more fits ih => exact (ih h).trans (List.suffix_cons c more)
  | case4 => cases h

theorem takeBytes?_within {text taken : Source} {bytes : Nat}
    (h : takeBytes? bytes text = some taken) : taken <+: text := by
  fun_induction takeBytes? bytes text generalizing taken with
  | case1 text =>
    obtain rfl := Option.some.inj h
    exact List.nil_prefix
  | case2 => cases h
  | case3 bytes c more fits ih =>
    obtain ⟨front, cut, rfl⟩ := Option.map_eq_some_iff.1 h
    exact List.cons_prefix_cons.2 ⟨rfl, ih cut⟩
  | case4 => cases h

theorem slice?_within {text piece : Source} {start stop : Nat}
    (h : text.slice? start stop = some piece) : piece <:+: text := by
  rw [slice?] at h
  split at h
  · obtain ⟨rest, dropped, taken⟩ := Option.bind_eq_some_iff.1 h
    exact (takeBytes?_within taken).isInfix.trans (dropBytes?_within dropped).isInfix
  · cases h

theorem dropFinal_within (c : Char) (text : Source) : dropFinal c text <+: text := by
  rw [dropFinal]
  split
  · exact List.dropLast_prefix text
  · exact List.prefix_rfl

theorem charsBegun_le_length (bytes : Nat) (text : Source) :
    charsBegun bytes text ≤ text.length := by
  fun_induction charsBegun bytes text with
  | case1 => exact Nat.zero_le _
  | case2 => exact Nat.le_refl 0
  | case3 bytes c rest ih => exact Nat.succ_le_succ ih

end Source

/-- A table quotes a piece of the text that it is given, whichever text it was made from. -/
theorem LineTable.lineText?_within {table : LineTable} {text shown : Source} {line : Nat}
    (h : table.lineText? text line = some shown) : shown <:+: text := by
  obtain ⟨start, _, rest⟩ := Option.bind_eq_some_iff.1 h
  obtain ⟨content, cut, ended⟩ := Option.bind_eq_some_iff.1 rest
  obtain rfl := Option.some.inj ended
  have front := Source.dropFinal_within '\r' (Source.dropFinal '\n' content)
  exact (front.trans (Source.dropFinal_within '\n' content)).isInfix.trans
    (Source.slice?_within cut)

namespace Diagnostic

theorem placeBy_lineText (diagnostic : Diagnostic) (table : LineTable) (text : Source) :
    (diagnostic.placeBy table text).lineText <:+: text := by
  rw [placeBy]
  dsimp only
  cases shown : table.lineText? text (table.locate diagnostic.span.start).line with
  | none => exact List.nil_infix
  | some quoted => exact LineTable.lineText?_within shown

theorem placeBy_column_le (diagnostic : Diagnostic) (table : LineTable) (text : Source) :
    (diagnostic.placeBy table text).column ≤
      (diagnostic.placeBy table text).lineText.length + 1 := by
  rw [placeBy]
  dsimp only
  generalize (table.lineText? text (table.locate diagnostic.span.start).line).getD [] = shown
  apply Nat.succ_le_succ
  cases before : shown.takeBytes? (table.locate diagnostic.span.start).column with
  | none => exact Nat.zero_le _
  | some front => exact (Source.takeBytes?_within before).length_le

theorem placeBy_width_le (diagnostic : Diagnostic) (table : LineTable) (text : Source) :
    (diagnostic.placeBy table text).width ≤
      max 1 (diagnostic.placeBy table text).lineText.length := by
  rw [placeBy]
  dsimp only
  generalize (table.lineText? text (table.locate diagnostic.span.start).line).getD [] = shown
  have begun := Source.charsBegun_le_length diagnostic.span.length
  apply sup_le_sup_left
  cases behind : shown.dropBytes? (table.locate diagnostic.span.start).column with
  | none => exact Nat.le_trans (begun []) (Nat.zero_le _)
  | some rest => exact Nat.le_trans (begun rest) (Source.dropBytes?_within behind).length_le

theorem placeBy_line_le (diagnostic : Diagnostic) (made text : Source) :
    (diagnostic.placeBy (LineTable.ofSource made) text).line ≤ made.length + 1 := by
  have lines : (LineTable.ofSource made).starts.length ≤ made.length + 1 := by
    have feeds := List.count_le_length (a := '\n') (l := made)
    rw [LineTable.ofSource, List.length_cons, LineTable.length_startsAfter]
    omega
  have located := List.countP_le_length (p := (· ≤ min diagnostic.span.start made.byteLength))
    (l := (LineTable.ofSource made).starts)
  have line : (diagnostic.placeBy (LineTable.ofSource made) text).line =
      (LineTable.ofSource made).starts.countP
        (· ≤ min diagnostic.span.start made.byteLength) - 1 + 1 := rfl
  omega

/-- The numbers of a placement fit 32 bits, unless the text or the text of the table takes all but
one of the bytes that 32 bits can count. -/
theorem placeBy_fits {made text : Source} (small : text.byteLength + 1 < UInt32.size)
    (tabled : made.byteLength + 1 < UInt32.size) (diagnostic : Diagnostic) :
    (diagnostic.placeBy (LineTable.ofSource made) text).line < UInt32.size ∧
      (diagnostic.placeBy (LineTable.ofSource made) text).column < UInt32.size ∧
      (diagnostic.placeBy (LineTable.ofSource made) text).width < UInt32.size := by
  have characters := Source.length_le_byteLength text
  have rows := Source.length_le_byteLength made
  have shown := (diagnostic.placeBy_lineText (LineTable.ofSource made) text).length_le
  have line := diagnostic.placeBy_line_le made text
  have column := diagnostic.placeBy_column_le (LineTable.ofSource made) text
  have width := diagnostic.placeBy_width_le (LineTable.ofSource made) text
  refine ⟨?_, ?_, ?_⟩
  · omega
  · omega
  · omega

end Diagnostic

end TermOutline
