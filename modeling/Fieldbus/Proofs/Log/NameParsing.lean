import Mathlib.Data.List.Basic
import Fieldbus.Log.Retention
import Fieldbus.Proofs.Log.SegmentName

/-!
# Reading the names of segments

Retention takes the age of a file from its name.  A segment's name that can be read gives the day
of the segment, and that of an archive gives the day of its segment
(`Segment.eq_of_parseName?_name`, `Segment.eq_of_parseName?_archiveName`).  So what is deleted is as
old as it looks, and an archive is never taken for a segment.
-/

namespace Fieldbus

/-! ## Days -/

namespace Date

theorem isBlankChar_of_isDigit {c : Char} (digit : c.isDigit = true) :
    Text.isBlankChar c = false := by
  have none : ∀ n < 58, 48 ≤ n → Text.blankCodes.contains n = false := by decide
  simp only [Char.isDigit, Bool.and_eq_true, decide_eq_true_eq] at digit
  exact none c.toNat (Nat.lt_succ_of_le (UInt32.le_iff_toNat_le.mp digit.2))
    (UInt32.le_iff_toNat_le.mp digit.1)

/-- Digits that are there are read, and nothing behind them. -/
theorem readNumber_digits {width : Nat} (pos : 0 < width) (n : Nat) (rest : List Char) :
    readNumber width (digits width n ++ rest) = some (n % 10 ^ width, rest) := by
  have length := length_digits width n
  have all : ∀ c ∈ digits width n, c.isDigit = true := fun c member => isDigit_of_mem_digits member
  have value := digitsValue_digits width n
  generalize digits width n = front at length all value
  cases front with
  | nil =>
    rw [List.length_nil] at length
    omega
  | cons c cs =>
    have blank := isBlankChar_of_isDigit (all c List.mem_cons_self)
    have skipped : ((c :: cs) ++ rest).dropWhile Text.isBlankChar = (c :: cs) ++ rest := by
      rw [List.cons_append, List.dropWhile_cons_of_neg (by simp [blank])]
    have run : (((c :: cs) ++ rest).take width).takeWhile Char.isDigit = c :: cs := by
      rw [List.take_left' length]
      rw [← List.append_nil (c :: cs), List.takeWhile_append_of_pos all]
      rfl
    simp only [readNumber, skipped, run, List.isEmpty_cons, Bool.false_eq_true, if_false, value,
      List.drop_left' rfl]

theorem readYear_digits (n : Nat) (rest : List Char) :
    readYear (digits 4 n ++ rest) = some (((n % 10 ^ 4 : Nat) : Int), rest) := by
  have read := readNumber_digits (Nat.zero_lt_succ 3) n rest
  have all : ∀ c ∈ digits 4 n, c.isDigit = true := fun c member => isDigit_of_mem_digits member
  have length := length_digits 4 n
  generalize digits 4 n = front at read all length
  cases front with
  | nil => cases length
  | cons c cs =>
    have digit := all c List.mem_cons_self
    have blank := isBlankChar_of_isDigit digit
    unfold readYear
    rw [List.cons_append, List.dropWhile_cons_of_neg (by simp [blank])]
    split
    next sign =>
      cases sign
      cases digit
    next sign =>
      cases sign
      cases digit
    next => rw [← List.cons_append, read]; rfl

/-- A year from zero to 9999 is written as its last four digits. -/
theorem yearDigits_eq_digits {year : Int} (least : 0 ≤ year) (most : year ≤ 9999) :
    yearDigits year = digits 4 year.natAbs := by
  have unsigned : yearSign year = [] := by
    rw [yearSign, if_neg (by omega), if_neg (by omega)]
  have short : (Nat.toDigits 10 year.natAbs).length ≤ 4 :=
    (Nat.length_toDigits_le_iff (by decide) (by decide)).mpr (by omega)
  rw [yearDigits_eq, unsigned, yearBody, Nat.max_eq_left short, List.nil_append]

/-- A year of four characters has no sign. -/
theorem bounds_of_length_yearDigits {year : Int} (four : (yearDigits year).length = 4) :
    0 ≤ year ∧ year ≤ 9999 := by
  have body : 4 ≤ (yearBody year).length := by
    rw [yearBody, length_digits]
    exact Nat.le_max_left ..
  rw [yearDigits_eq, List.length_append] at four
  have unsigned : yearSign year = [] := List.length_eq_zero_iff.mp (by omega)
  unfold yearSign at unsigned
  split at unsigned
  next => cases unsigned
  next positive =>
    split at unsigned
    next => cases unsigned
    next small => exact ⟨Int.not_lt.mp positive, Int.not_lt.mp small⟩

/-- A date of eight characters is read as itself, if the calendar has it. -/
theorem ofCompact?_compact {d : Date} (h : d.TwoDigit) (eight : d.compact.length = 8) :
    ofCompact? d.compact = if d.isValid then some d else none := by
  have four : (yearDigits d.year).length = 4 := by
    simp only [compact, List.length_append, length_digits] at eight
    omega
  obtain ⟨least, most⟩ := bounds_of_length_yearDigits four
  have positive : d.year = d.year.natAbs := by omega
  have small : d.year.natAbs < 10 ^ 4 := by omega
  have last := readNumber_digits Nat.zero_lt_two d.day []
  rw [List.append_nil] at last
  rw [compact, yearDigits_eq_digits least most, List.append_assoc]
  simp only [ofCompact?, readYear_digits, readNumber_digits Nat.zero_lt_two, last,
    Option.bind_eq_bind, Option.bind_some, List.isEmpty_nil, Bool.true_and,
    Nat.mod_eq_of_lt small, Nat.mod_eq_of_lt h.month, Nat.mod_eq_of_lt h.day, ← positive]

theorem eight_le_length_compact (d : Date) : 8 ≤ d.compact.length := by
  simp only [compact, List.length_append, length_digits, yearDigits_eq, yearBody]
  have := Nat.le_max_left 4 (Nat.toDigits 10 d.year.natAbs).length
  omega

end Date

namespace Log

/-! ## Names -/

namespace Segment

theorem splitAtBytes?_append {bytes : Nat} {cs front rest : List Char}
    (h : splitAtBytes? bytes cs = some (front, rest)) :
    cs = front ++ rest ∧ front.length ≤ bytes := by
  induction cs generalizing bytes front rest with
  | nil =>
    unfold splitAtBytes? at h
    split at h
    next =>
      cases h
      exact ⟨rfl, Nat.zero_le _⟩
    next => cases h
  | cons c cs ih =>
    unfold splitAtBytes? at h
    split at h
    next =>
      cases h
      exact ⟨rfl, Nat.zero_le _⟩
    next =>
      split at h
      next fits =>
        obtain ⟨⟨front', rest'⟩, split, same⟩ := Option.map_eq_some_iff.mp h
        cases same
        obtain ⟨rfl, short⟩ := ih split
        have size := c.utf8Size_pos
        exact ⟨rfl, by rw [List.length_cons]; omega⟩
      next => cases h

theorem mark_not_mem_compact (d : Date) : '_' ∉ d.compact := by
  intro member
  rcases Date.mem_compact member with digit | sign | sign
  · cases digit
  · cases sign
  · cases sign

/-- Two ways to split a text before a mark that neither front has. -/
theorem append_inj_of_mark {front front' rest rest' : List Char} (free : '_' ∉ front)
    (short : front'.length ≤ front.length) (same : front ++ '_' :: rest = front' ++ '_' :: rest') :
    front = front' := by
  rcases Nat.lt_or_eq_of_le short with shorter | length
  · -- The mark behind the shorter front would stand in the longer one.
    have here : front[front'.length]? = some '_' := by
      have mark := congrArg (·[front'.length]?) same
      simpa [List.getElem?_append_left shorter] using mark
    exact absurd (List.mem_of_getElem? here) free
  · exact (List.append_inj same length.symm).1

/-- The stem of a segment's name gives the day of the segment, if it gives one. -/
theorem eq_of_parseStem? {day read : Date} {channel : UInt16} {number : Nat} (h : day.TwoDigit)
    (parsed : parseStem? channel (day.compact ++ channelMark channel ++ numberPart number) =
      some read) : read = day := by
  simp only [parseStem?, Option.bind_eq_bind, Option.bind_eq_some_iff, Prod.exists] at parsed
  obtain ⟨date, rest, split, found, dated, number', marked, last⟩ := parsed
  obtain ⟨whole, short⟩ := splitAtBytes?_append split
  rw [List.isPrefixOf?_eq_some_iff_append_eq] at marked
  subst marked
  have eight := day.eight_le_length_compact
  rw [List.append_assoc] at whole
  have same : day.compact = date :=
    append_inj_of_mark (mark_not_mem_compact day) (by omega) whole
  subst same
  rw [Date.ofCompact?_compact h (by omega)] at dated
  split at dated
  next =>
    cases dated
    split at last
    next =>
      cases last
      rfl
    next => cases last
  next => cases dated

/-- What stands before the extension of a segment's name. -/
theorem nameChars_eq_stem (day : Date) (channel : UInt16) (number : Nat) :
    nameChars day channel number =
      day.compact ++ channelMark channel ++ numberPart number ++ extension := rfl

theorem isSuffixOf?_nameChars (day : Date) (channel : UInt16) (number : Nat) :
    extension.isSuffixOf? (nameChars day channel number) =
      some (day.compact ++ channelMark channel ++ numberPart number) := by
  rw [List.isSuffixOf?_eq_some_iff_append_eq]
  rfl

/-- The name of a segment is read through its stem, and is not that of an archive. -/
theorem parseName?_name (day : Date) (channel reader : UInt16) (number : Nat) :
    parseName? reader (name day channel number) =
      (parseStem? reader (day.compact ++ channelMark channel ++ numberPart number)).map
        fun day => (day, false) := by
  have plain : archiveExtension.isSuffixOf? (nameChars day channel number) = none := by
    rw [Option.eq_none_iff_forall_ne_some]
    intro front ends
    rw [List.isSuffixOf?_eq_some_iff_append_eq, nameChars_eq_stem] at ends
    have last := congrArg List.getLast? ends
    simp [archiveExtension, extension] at last
  rw [parseName?, name, String.toList_ofList, parseChars?, plain]
  simp only [isSuffixOf?_nameChars, Option.bind_some]

/-- The name of an archive is read through the stem of its segment's name. -/
theorem parseName?_archiveName_name (day : Date) (channel reader : UInt16) (number : Nat) :
    parseName? reader (archiveName (name day channel number)) =
      (parseStem? reader (day.compact ++ channelMark channel ++ numberPart number)).map
        fun day => (day, true) := by
  have packed : archiveExtension.isSuffixOf? (nameChars day channel number ++ archiveExtension) =
      some (nameChars day channel number) := by
    rw [List.isSuffixOf?_eq_some_iff_append_eq]
  have chars : (archiveName (name day channel number)).toList =
      nameChars day channel number ++ archiveExtension := by
    rw [archiveName, String.toList_append, name, String.toList_ofList]
    rfl
  rw [parseName?, chars, parseChars?, packed]
  simp only [isSuffixOf?_nameChars, Option.bind_some]

/-- The name of a segment gives its day, if it gives one, and is not that of an archive. -/
theorem eq_of_parseName?_name {day read : Date} {channel : UInt16} {number : Nat} {archived : Bool}
    (h : day.TwoDigit)
    (parsed : parseName? channel (name day channel number) = some (read, archived)) :
    read = day ∧ archived = false := by
  rw [parseName?_name] at parsed
  obtain ⟨found, dated, same⟩ := Option.map_eq_some_iff.mp parsed
  cases same
  exact ⟨eq_of_parseStem? h dated, rfl⟩

/-- The name of an archive gives the day of its segment, if it gives one. -/
theorem eq_of_parseName?_archiveName {day read : Date} {channel : UInt16} {number : Nat}
    {archived : Bool} (h : day.TwoDigit)
    (parsed : parseName? channel (archiveName (name day channel number)) =
      some (read, archived)) : read = day ∧ archived = true := by
  rw [parseName?_archiveName_name] at parsed
  obtain ⟨found, dated, same⟩ := Option.map_eq_some_iff.mp parsed
  cases same
  exact ⟨eq_of_parseStem? h dated, rfl⟩

end Segment

/-! ## Paths -/

open Writer (segmentPath)

theorem archivePath_segmentPath (channel : UInt16) (day : Date) (number : Nat) :
    archivePath (segmentPath channel day number) =
      channelFolder channel ++ [Segment.archiveName (Segment.name day channel number)] := rfl

/-- An archive is no segment. -/
theorem archivePath_ne_segmentPath (channel channel' : UInt16) (day day' : Date)
    (number number' : Nat) :
    archivePath (segmentPath channel day number) ≠ segmentPath channel' day' number' := by
  intro same
  have names : Segment.archiveName (Segment.name day channel number) =
      Segment.name day' channel' number' := by
    rw [archivePath_segmentPath] at same
    simpa [segmentPath] using (List.append_inj' same rfl).2
  have chars := congrArg String.toList names
  rw [Segment.archiveName, String.toList_append, Segment.name, Segment.name, String.toList_ofList,
    String.toList_ofList, Segment.nameChars_eq_stem, Segment.nameChars_eq_stem day'] at chars
  have last := congrArg List.getLast? chars
  simp [Segment.extension] at last

/-- Segments have archives of their own. -/
theorem archivePath_inj {channel channel' : UInt16} {day day' : Date} {number number' : Nat}
    (same : archivePath (segmentPath channel day number) =
      archivePath (segmentPath channel' day' number')) :
    segmentPath channel day number = segmentPath channel' day' number' := by
  rw [archivePath_segmentPath, archivePath_segmentPath] at same
  obtain ⟨folders, names⟩ := List.append_inj' same rfl
  have chars := congrArg String.toList (List.cons.inj names).1
  rw [Segment.archiveName, Segment.archiveName, String.toList_append, String.toList_append] at chars
  have plain := String.toList_injective (List.append_cancel_right chars)
  rw [segmentPath, segmentPath, folders, plain]

end Log

end Fieldbus
