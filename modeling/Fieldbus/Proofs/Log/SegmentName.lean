import Mathlib.Algebra.Group.Nat.Defs
import Fieldbus.Log.Writer

/-!
# Names of segments are unique

A segment's name is its day, its channel and its number, written one behind the other.  It can be
taken apart in one way only, as each part ends where a character of another kind stands: the sign
of the year before a digit, the day before the channel's mark, the channel before a dot.

`segmentPath_inj` says that two segments with the same path are the same segment.  It holds of
days with a month and a day of the month below one hundred, as all dates of an instant are
(`Instant.date_twoDigit`) and all valid dates (`Date.twoDigit_of_isValid`).
-/

namespace Fieldbus

/-- Two texts that are split where a property first fails are split alike. -/
theorem append_inj_of_first (p : Char → Bool) {front front' rest rest' : List Char}
    (holds : ∀ c ∈ front, p c) (holds' : ∀ c ∈ front', p c)
    (fails : ∀ c ∈ rest.head?, ¬ p c) (fails' : ∀ c ∈ rest'.head?, ¬ p c)
    (same : front ++ rest = front' ++ rest') : front = front' ∧ rest = rest' := by
  have stop : ∀ {rest : List Char}, (∀ c ∈ rest.head?, ¬ p c) → rest.takeWhile p = [] := by
    intro rest fails
    cases rest with
    | nil => rfl
    | cons c rest => exact List.takeWhile_cons_of_neg (fails c rfl)
  have taken := congrArg (List.takeWhile p) same
  rw [List.takeWhile_append_of_pos holds, List.takeWhile_append_of_pos holds', stop fails,
    stop fails', List.append_nil, List.append_nil] at taken
  subst taken
  exact ⟨rfl, List.append_cancel_left same⟩

/-! ## Days -/

namespace Date

@[simp] theorem length_digits (width n : Nat) : (digits width n).length = width := by
  induction width generalizing n with
  | zero => rfl
  | succ width ih => rw [digits, List.length_append, ih, List.length_singleton]

theorem isDigit_of_mem_digits {width n : Nat} {c : Char} (h : c ∈ digits width n) :
    c.isDigit := by
  induction width generalizing n with
  | zero => cases h
  | succ width ih =>
    rcases List.mem_append.mp h with front | last
    · exact ih front
    · rw [List.mem_singleton.mp last]
      exact (by decide : ∀ k < 10, (Nat.digitChar k).isDigit) _ (Nat.mod_lt _ (by decide))

/-- The value of the last digits of a number is the number, cut to them. -/
theorem digitsValue_digits (width n : Nat) : digitsValue (digits width n) = n % 10 ^ width := by
  induction width generalizing n with
  | zero => rw [Nat.pow_zero, Nat.mod_one]; rfl
  | succ width ih =>
    have last : (Nat.digitChar (n % 10)).toNat - 48 = n % 10 :=
      (by decide : ∀ k < 10, (Nat.digitChar k).toNat - 48 = k) _ (Nat.mod_lt _ (by decide))
    rw [digits, digitsValue, List.foldl_append, ← digitsValue, ih, Nat.pow_succ', Nat.mod_mul]
    simp only [List.foldl_cons, List.foldl_nil, last]
    exact Nat.add_comm _ _

theorem digits_inj {width n m : Nat} (hn : n < 10 ^ width) (hm : m < 10 ^ width)
    (same : digits width n = digits width m) : n = m := by
  have value := congrArg digitsValue same
  rwa [digitsValue_digits, digitsValue_digits, Nat.mod_eq_of_lt hn, Nat.mod_eq_of_lt hm] at value

/-- The sign of a year with its digits. -/
def yearSign (year : Int) : List Char :=
  if year < 0 then ['-'] else if 9999 < year then ['+'] else []

/-- The digits of a year without its sign. -/
def yearBody (year : Int) : List Char :=
  digits (max 4 (Nat.toDigits 10 year.natAbs).length) year.natAbs

theorem yearDigits_eq (year : Int) : yearDigits year = yearSign year ++ yearBody year := by
  unfold yearDigits yearSign
  split
  · rfl
  · split <;> rfl

theorem mem_yearSign {year : Int} {c : Char} (h : c ∈ yearSign year) : c = '-' ∨ c = '+' := by
  unfold yearSign at h
  split at h
  · exact .inl (List.mem_singleton.mp h)
  · split at h
    · exact .inr (List.mem_singleton.mp h)
    · cases h

theorem digitsValue_yearBody (year : Int) : digitsValue (yearBody year) = year.natAbs := by
  rw [yearBody, digitsValue_digits]
  apply Nat.mod_eq_of_lt
  calc year.natAbs
      < 10 ^ (Nat.toDigits 10 year.natAbs).length :=
        (Nat.length_toDigits_le_iff (by decide) Nat.length_toDigits_pos).mp (Nat.le_refl _)
    _ ≤ 10 ^ max 4 (Nat.toDigits 10 year.natAbs).length :=
        Nat.pow_le_pow_right (by decide) (Nat.le_max_right _ _)

theorem yearDigits_inj {year year' : Int} (same : yearDigits year = yearDigits year') :
    year = year' := by
  have sign_stops : ∀ year, ∀ c ∈ yearSign year, (!c.isDigit) = true := by
    intro year c h
    rcases mem_yearSign h with rfl | rfl <;> rfl
  have body_starts : ∀ year, ∀ c ∈ (yearBody year).head?, ¬ (!c.isDigit) = true := by
    intro year c h
    simp [isDigit_of_mem_digits (List.mem_of_mem_head? h)]
  rw [yearDigits_eq, yearDigits_eq] at same
  obtain ⟨sign, body⟩ := append_inj_of_first (fun c => !c.isDigit) (sign_stops year)
    (sign_stops year') (body_starts year) (body_starts year') same
  have value := congrArg digitsValue body
  rw [digitsValue_yearBody, digitsValue_yearBody] at value
  unfold yearSign at sign
  grind

/-- The month and the day of the month have two digits at most. -/
structure TwoDigit (d : Date) : Prop where
  month : d.month < 10 ^ 2
  day : d.day < 10 ^ 2

theorem daysInMonth_le (year : Int) (month : Nat) : daysInMonth year month ≤ 31 := by
  unfold daysInMonth
  split
  · split <;> decide
  all_goals decide

theorem le_daysInMonth (year : Int) (month : Nat) : 28 ≤ daysInMonth year month := by
  unfold daysInMonth
  split
  · split <;> decide
  all_goals decide

theorem twoDigit_of_isValid {d : Date} (h : d.isValid = true) : d.TwoDigit := by
  simp only [isValid, Bool.and_eq_true, decide_eq_true_eq] at h
  have := daysInMonth_le d.year d.month
  exact ⟨by omega, by omega⟩

/-- The month grows by one for each month that is passed.  The days left are at most those of a
month, unless every month was passed. -/
theorem monthAndDay_le (year : Int) (months month rest : Nat) :
    (monthAndDay year months month rest).1 ≤ month + months ∧
      ((monthAndDay year months month rest).2 ≤ 31 ∨
        (monthAndDay year months month rest).2 + 28 * months ≤ rest + 1) := by
  induction months generalizing month rest with
  | zero => exact ⟨Nat.le_refl _, .inr (Nat.le_refl _)⟩
  | succ months ih =>
    have days := daysInMonth_le year month
    have days' := le_daysInMonth year month
    simp only [monthAndDay]
    split
    next inside =>
      exact ⟨by omega, .inl (by omega)⟩
    next outside =>
      obtain ⟨bound, left⟩ := ih (month + 1) (rest - daysInMonth year month)
      exact ⟨by omega, left.imp_right fun left => by omega⟩

/-- A day of a year that counts from zero has a month and a day of the month. -/
theorem monthAndDay_twoDigit (year : Int) {rest : Nat} (h : rest ≤ 365) :
    TwoDigit (match monthAndDay year 11 1 rest with | (month, day) => ⟨year, month, day⟩) := by
  obtain ⟨month, day⟩ := monthAndDay_le year 11 1 rest
  generalize monthAndDay year 11 1 rest = found at month day ⊢
  exact ⟨by dsimp only; omega, by dsimp only; omega⟩

theorem ofOrdinal_twoDigit (ordinal : Int) : (ofOrdinal ordinal).TwoDigit := by
  rw [ofOrdinal]
  apply monthAndDay_twoDigit
  -- The last year of four has one day more than the others.
  omega

theorem compact_inj {d d' : Date} (h : d.TwoDigit) (h' : d'.TwoDigit)
    (same : d.compact = d'.compact) : d = d' := by
  obtain ⟨front, day⟩ := List.append_inj' same (by rw [length_digits, length_digits])
  obtain ⟨year, month⟩ := List.append_inj' front (by rw [length_digits, length_digits])
  obtain ⟨y, m, k⟩ := d
  obtain ⟨y', m', k'⟩ := d'
  rw [Date.mk.injEq]
  exact ⟨yearDigits_inj year, digits_inj h.month h'.month month, digits_inj h.day h'.day day⟩

/-- A date's characters are digits but for the sign of its year. -/
theorem mem_compact {d : Date} {c : Char} (h : c ∈ d.compact) :
    c.isDigit ∨ c = '-' ∨ c = '+' := by
  rw [compact, yearDigits_eq] at h
  simp only [List.mem_append] at h
  rcases h with ((sign | body) | month) | day
  · exact .inr (mem_yearSign sign)
  · exact .inl (isDigit_of_mem_digits body)
  · exact .inl (isDigit_of_mem_digits month)
  · exact .inl (isDigit_of_mem_digits day)

end Date

theorem Instant.date_twoDigit (t : Instant) : t.date.TwoDigit := Date.ofOrdinal_twoDigit _

/-! ## Names -/

namespace Log

namespace Segment

theorem toDigits_isDigit (n : Nat) : ∀ c ∈ Nat.toDigits 10 n, c.isDigit = true :=
  fun _ member => Nat.isDigit_of_mem_toDigits (by decide) (by decide) member

theorem toDigits_inj {n m : Nat} (same : Nat.toDigits 10 n = Nat.toDigits 10 m) : n = m := by
  have value := congrArg (Nat.ofDigitChars 10 · 0) same
  simpa only [Nat.ofDigitChars_ten_toDigits] using value

/-- What stands between the channel and the extension. -/
def numberPart (number : Nat) : List Char :=
  if number = 0 then [] else '.' :: Nat.toDigits 10 number

theorem numberPart_inj {number number' : Nat} (same : numberPart number = numberPart number') :
    number = number' := by
  unfold numberPart at same
  split at same <;> split at same
  next zero zero' => rw [zero, zero']
  next => cases same
  next => cases same
  next => exact toDigits_inj (List.cons.inj same).2

theorem numberPart_starts (number : Nat) : ∀ c ∈ (numberPart number).head?, ¬ c.isDigit := by
  unfold numberPart
  split
  · rintro c ⟨⟩
  · rintro c ⟨⟩
    decide

theorem nameChars_eq (day : Date) (channel : UInt16) (number : Nat) :
    nameChars day channel number =
      day.compact ++ ('_' :: 'c' :: 'h' :: (Nat.toDigits 10 channel.toNat ++ numberPart number)) ++
        extension := by
  rw [nameChars, channelMark, numberPart, List.append_assoc day.compact]
  rfl

/-- A name belongs to one day, one channel and one number. -/
theorem nameChars_inj {day day' : Date} {channel channel' : UInt16} {number number' : Nat}
    (h : day.TwoDigit) (h' : day'.TwoDigit)
    (same : nameChars day channel number = nameChars day' channel' number') :
    day = day' ∧ channel = channel' ∧ number = number' := by
  have compact_stops : ∀ d : Date, ∀ c ∈ d.compact, (c != '_') = true := by
    intro d c member
    rcases Date.mem_compact member with digit | rfl | rfl
    · exact bne_iff_ne.mpr fun mark => absurd (mark ▸ digit) (by decide)
    · rfl
    · rfl
  rw [nameChars_eq, nameChars_eq] at same
  obtain ⟨days, marks⟩ := append_inj_of_first (· != '_') (compact_stops day) (compact_stops day')
    (by simp) (by simp) (List.append_cancel_right same)
  obtain ⟨channels, numbers⟩ := append_inj_of_first Char.isDigit (toDigits_isDigit _)
    (toDigits_isDigit _) (numberPart_starts number) (numberPart_starts number') (by simpa using marks)
  exact ⟨Date.compact_inj h h' days, UInt16.toNat_inj.mp (toDigits_inj channels),
    numberPart_inj numbers⟩

end Segment

/-- The path of a segment belongs to one day, one channel and one number. -/
theorem Writer.segmentPath_inj {day day' : Date} {channel channel' : UInt16}
    {number number' : Nat} (h : day.TwoDigit) (h' : day'.TwoDigit)
    (same : segmentPath channel day number = segmentPath channel' day' number') :
    day = day' ∧ channel = channel' ∧ number = number' := by
  have names : Segment.name day channel number = Segment.name day' channel' number' := by
    simpa using (List.append_inj' same rfl).2
  exact Segment.nameChars_inj h h' (String.ofList_injective names)

/-- Channels have folders of their own. -/
theorem channelFolder_inj {channel channel' : UInt16}
    (same : channelFolder channel = channelFolder channel') : channel = channel' := by
  have names : toString channel.toNat = toString channel'.toNat := (List.cons.inj same).1
  rw [Nat.toString_eq_ofList_toDigits, Nat.toString_eq_ofList_toDigits] at names
  exact UInt16.toNat_inj.mp (Segment.toDigits_inj (String.ofList_injective names))

/-- The segments of different channels are in different folders. -/
theorem Writer.segmentPath_ne {channel channel' : UInt16} (other : channel ≠ channel')
    (day day' : Date) (number number' : Nat) :
    segmentPath channel day number ≠ segmentPath channel' day' number' := by
  intro same
  exact other (channelFolder_inj (List.append_inj' same rfl).1)

end Log

end Fieldbus
