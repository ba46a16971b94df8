import Fieldbus.Proofs.Log.NameParsing

/-!
# Names are read by their own channel

Every channel that sweeps a folder reads all the names in it, so a name must be read by the channel
that made it and by no other.  The number of a channel is read as a text, and one number may begin
another.  What tells them apart is what follows: behind its own channel a name goes on with a dot
or ends, and behind the begin of a longer number it goes on with a digit
(`Segment.eq_of_channelMark_append`).

`Segment.names_own` says so for days of the years zero to 9999, which are written in eight
characters.
-/

namespace Fieldbus

/-! ## Days -/

namespace Date

theorem utf8Size_of_isDigit {c : Char} (digit : c.isDigit = true) : c.utf8Size = 1 := by
  rw [Char.utf8Size_eq_one_iff]
  simp only [Char.isDigit, Bool.and_eq_true, decide_eq_true_eq] at digit
  exact UInt32.le_trans digit.2 (by decide)

/-- A day that the calendar has, in a year that is written with four digits. -/
structure Plain (d : Date) : Prop where
  valid : d.isValid = true
  least : 0 ≤ d.year
  most : d.year ≤ 9999

variable {d : Date}

theorem Plain.compact_eq (plain : d.Plain) :
    d.compact = digits 4 d.year.natAbs ++ digits 2 d.month ++ digits 2 d.day := by
  rw [compact, yearDigits_eq_digits plain.least plain.most]

theorem Plain.length_compact (plain : d.Plain) : d.compact.length = 8 := by
  simp only [plain.compact_eq, List.length_append, length_digits]

theorem Plain.isDigit_of_mem_compact (plain : d.Plain) {c : Char} (member : c ∈ d.compact) :
    c.isDigit = true := by
  rw [plain.compact_eq, List.mem_append, List.mem_append] at member
  rcases member with (year | month) | day
  · exact isDigit_of_mem_digits year
  · exact isDigit_of_mem_digits month
  · exact isDigit_of_mem_digits day

theorem Plain.ofCompact?_compact (plain : d.Plain) : ofCompact? d.compact = some d := by
  rw [Date.ofCompact?_compact (twoDigit_of_isValid plain.valid) plain.length_compact, plain.valid]
  rfl

end Date

namespace Log

namespace Segment

/-! ## Cutting and marks -/

/-- Characters of one byte each are cut off where they end. -/
theorem splitAtBytes?_of_bytes {front : List Char} (single : ∀ c ∈ front, c.utf8Size = 1)
    (rest : List Char) : splitAtBytes? front.length (front ++ rest) = some (front, rest) := by
  induction front with
  | nil => cases rest <;> rfl
  | cons c front ih =>
    have here := single c List.mem_cons_self
    have behind := ih fun c member => single c (List.mem_cons_of_mem _ member)
    rw [List.length_cons, List.cons_append, splitAtBytes?, if_neg (Nat.succ_ne_zero _),
      if_pos (by omega), here, Nat.add_sub_cancel, behind]
    rfl

theorem isNumberPart_numberPart (number : Nat) : isNumberPart (numberPart number) = true := by
  unfold numberPart
  split
  next => rfl
  next =>
    have digits := toDigits_isDigit number
    have some : Nat.toDigits 10 number ≠ [] := List.ne_nil_of_length_pos Nat.length_toDigits_pos
    simpa [isNumberPart, some] using digits

theorem isNumberPart_starts {rest : List Char} (part : isNumberPart rest = true) :
    ∀ c ∈ rest.head?, ¬ c.isDigit := by
  unfold isNumberPart at part
  split at part
  next =>
    rintro c ⟨⟩
  next =>
    rintro c ⟨⟩
    decide
  next => cases part

/-- A mark that is followed as the mark of a channel is the mark of that channel. -/
theorem eq_of_channelMark_append {reader channel : UInt16} {rest : List Char} {number : Nat}
    (part : isNumberPart rest = true)
    (same : channelMark reader ++ rest = channelMark channel ++ numberPart number) :
    reader = channel := by
  have numbers : Nat.toDigits 10 reader.toNat ++ rest =
      Nat.toDigits 10 channel.toNat ++ numberPart number := by
    rw [channelMark, channelMark, List.append_assoc, List.append_assoc] at same
    exact List.append_cancel_left same
  obtain ⟨channels, -⟩ := append_inj_of_first Char.isDigit (toDigits_isDigit _)
    (toDigits_isDigit _) (isNumberPart_starts part) (numberPart_starts number) numbers
  exact UInt16.toNat_inj.mp (toDigits_inj channels)

/-! ## Names -/

/-- A stem gives its day to its own channel and nothing to the others. -/
theorem parseStem?_stem {day : Date} (plain : day.Plain) (channel reader : UInt16) (number : Nat) :
    parseStem? reader (day.compact ++ channelMark channel ++ numberPart number) =
      if reader = channel then some day else none := by
  have cut : splitAtBytes? 8 (day.compact ++ (channelMark channel ++ numberPart number)) =
      some (day.compact, channelMark channel ++ numberPart number) := by
    rw [← plain.length_compact]
    exact splitAtBytes?_of_bytes
      (fun c member => Date.utf8Size_of_isDigit (plain.isDigit_of_mem_compact member)) _
  rw [parseStem?, List.append_assoc, cut]
  simp only [Option.bind_eq_bind, Option.bind_some, plain.ofCompact?_compact]
  split
  next own =>
    subst own
    have marked : (channelMark reader).isPrefixOf? (channelMark reader ++ numberPart number) =
        some (numberPart number) := List.isPrefixOf?_eq_some_iff_append_eq.mpr rfl
    rw [marked, Option.bind_some, isNumberPart_numberPart]
    rfl
  next other =>
    cases marked : (channelMark reader).isPrefixOf? (channelMark channel ++ numberPart number) with
    | none => rfl
    | some rest =>
      have same := List.isPrefixOf?_eq_some_iff_append_eq.mp marked
      have foreign : ¬ isNumberPart rest = true :=
        fun part => other (eq_of_channelMark_append part same)
      rw [Option.bind_some, if_neg foreign]

/-- The name of a segment, and that of its archive, is read by its own channel and by no other,
and tells them apart.  The name belongs to one day, one channel and one number. -/
theorem names_own {day : Date} (valid : day.isValid = true) (least : 0 ≤ day.year)
    (most : day.year ≤ 9999) (channel reader : UInt16) (number : Nat) :
    parseName? reader (name day channel number) =
        (if reader = channel then some (day, false) else none) ∧
      parseName? reader (archiveName (name day channel number)) =
        (if reader = channel then some (day, true) else none) ∧
      ∀ (other : Date) (channel' : UInt16) (number' : Nat), other.isValid = true →
        name day channel number = name other channel' number' →
          day = other ∧ channel = channel' ∧ number = number' := by
  have plain : day.Plain := ⟨valid, least, most⟩
  refine ⟨?_, ?_, ?_⟩
  · rw [parseName?_name, parseStem?_stem plain]
    split <;> rfl
  · rw [parseName?_archiveName_name, parseStem?_stem plain]
    split <;> rfl
  · intro other channel' number' valid' same
    exact nameChars_inj (Date.twoDigit_of_isValid valid) (Date.twoDigit_of_isValid valid')
      (String.ofList_injective same)

def leapDay : Date := ⟨2024, 2, 29⟩

/-- The number of channel 5 begins that of channel 55, and a 5 stands behind the dot too. -/
theorem longer_number_names_own :
    leapDay.isValid = true ∧ 0 ≤ leapDay.year ∧ leapDay.year ≤ 9999 ∧
      parseName? 5 (name leapDay 55 5) = none ∧
      parseName? 55 (name leapDay 55 5) = some (leapDay, false) ∧
      parseName? 5 (archiveName (name leapDay 55 5)) = none ∧
      parseName? 55 (archiveName (name leapDay 55 5)) = some (leapDay, true) ∧
      leapDay = leapDay ∧ (55 : UInt16) = 55 ∧ 5 = 5 := by
  have valid : leapDay.isValid = true := by decide
  have least : 0 ≤ leapDay.year := by decide
  have most : leapDay.year ≤ 9999 := by decide
  obtain ⟨foreign, foreign', -⟩ := names_own valid least most 55 5 5
  obtain ⟨own, own', one⟩ := names_own valid least most 55 55 5
  exact ⟨valid, least, most, foreign, own, foreign', own', one leapDay 55 5 valid rfl⟩

end Segment

end Log

end Fieldbus
