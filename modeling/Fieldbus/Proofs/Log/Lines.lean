import Mathlib.Algebra.BigOperators.Group.List.Basic
import Mathlib.Algebra.GroupWithZero.Nat
import Fieldbus.Proofs.Log.SegmentName

/-!
# What a line says

A line is a time and fields behind it, each a key and a value.  A value is a word, or a text between
double quotes that has none inside (`isValue`), and then a line can be taken apart in one way only
(`Splits.unique`).

Two parts of a record are free texts.  The text of a fault loses its double quotes, and nothing
else.  The name of a command is written as it is.  So a line is one line and says what its record
says just where these two allow it (`line_says`).
-/

namespace Fieldbus.Log

/-! ## The form of a line -/

/-- Neither a space nor a newline. -/
def isPlain (c : Char) : Bool := c ≠ ' ' ∧ c ≠ '\n'

/-- Neither a double quote nor a newline. -/
def isInner (c : Char) : Bool := c ≠ '"' ∧ c ≠ '\n'

/-- A character that may stand in a key. -/
def isKeyChar (c : Char) : Bool := isPlain c && c ≠ '='

/-- The value of a field: a text between double quotes, or a word. -/
def isValue : List Char → Bool
  | '"' :: rest => rest.getLast? = some '"' && rest.dropLast.all isInner
  | cs => cs.all isPlain

/-- A text is a line of a time and fields. -/
structure Splits (line time : String) (fields : List (String × String)) : Prop where
  plain : time.toList.all isPlain
  keys : ∀ field ∈ fields, field.1.toList.all isKeyChar
  values : ∀ field ∈ fields, isValue field.2.toList
  line : line = time ++ String.join (fields.map Record.fieldText) ++ "\n"

/-! ## There is one way to take a line apart -/

theorem isValue_quoted (inner : List Char) :
    isValue ('"' :: (inner ++ ['"'])) = inner.all isInner := by
  simp [isValue]

theorem isValue_cases {cs : List Char} (h : isValue cs) :
    (cs.head? ≠ some '"' ∧ ∀ c ∈ cs, isPlain c) ∨
      ∃ inner, cs = '"' :: (inner ++ ['"']) ∧ ∀ c ∈ inner, c ≠ '"' := by
  unfold isValue at h
  split at h
  next rest =>
    obtain ⟨last, inside⟩ := Bool.and_eq_true_iff.mp h
    refine .inr ⟨rest.dropLast, ?_, fun c member => ?_⟩
    · rw [List.dropLast_append_getLast? '"' (of_decide_eq_true last)]
    · exact (of_decide_eq_true (List.all_eq_true.mp inside c member)).1
  next unquoted =>
    refine .inl ⟨fun starts => ?_, List.all_eq_true.mp h⟩
    obtain ⟨rest, rfl⟩ := List.head?_eq_some_iff.mp starts
    exact unquoted rest rfl

/-- The text goes on with a space or a newline. -/
def Stops (rest : List Char) : Prop := ∃ c ∈ rest.head?, isPlain c = false

theorem Stops.not_isPlain {rest : List Char} (h : Stops rest) :
    ∀ c ∈ rest.head?, ¬ isPlain c := by
  obtain ⟨c, first, blank⟩ := h
  intro c' first'
  rw [Option.mem_unique first' first, blank]
  exact Bool.false_ne_true

/-- A word does not begin as a quoted text does, also if there is nothing of it. -/
theorem word_append_ne {word rest : List Char} (bare : word.head? ≠ some '"') (stops : Stops rest)
    (behind : List Char) : word ++ rest ≠ '"' :: behind := by
  intro same
  cases word with
  | nil =>
    obtain ⟨c, first, blank⟩ := stops
    rw [List.nil_append] at same
    rw [same] at first
    cases first
    cases blank
  | cons c word =>
    cases (List.cons.inj same).1
    exact bare rfl

/-- A value ends where a space or a newline follows it. -/
theorem value_inj {value value' rest rest' : List Char} (h : isValue value) (h' : isValue value')
    (stops : Stops rest) (stops' : Stops rest') (same : value ++ rest = value' ++ rest') :
    value = value' ∧ rest = rest' := by
  rcases isValue_cases h with ⟨bare, plain⟩ | ⟨inner, rfl, inside⟩ <;>
    rcases isValue_cases h' with ⟨bare', plain'⟩ | ⟨inner', rfl, inside'⟩
  · exact append_inj_of_first isPlain plain plain' stops.not_isPlain stops'.not_isPlain same
  · exact absurd same (word_append_ne bare stops _)
  · exact absurd same.symm (word_append_ne bare' stops' _)
  · simp only [List.cons_append, List.append_assoc, List.nil_append] at same
    obtain ⟨rfl, tails⟩ := append_inj_of_first (fun c => c ≠ '"') (by simpa using inside)
      (by simpa using inside') (by simp) (by simp) (List.cons.inj same).2
    exact ⟨rfl, (List.cons.inj tails).2⟩

/-- What stands behind the time of a line. -/
def behindTime (fields : List (String × String)) : List Char :=
  (fields.flatMap fun field => (Record.fieldText field).toList) ++ ['\n']

theorem behindTime_cons (key value : String) (fields : List (String × String)) :
    behindTime ((key, value) :: fields) =
      ' ' :: (key.toList ++ '=' :: (value.toList ++ behindTime fields)) := by
  simp [behindTime, Record.fieldText]

theorem behindTime_stops (fields : List (String × String)) : Stops (behindTime fields) := by
  cases fields with
  | nil => exact ⟨'\n', rfl, rfl⟩
  | cons field fields =>
    rw [behindTime_cons]
    exact ⟨' ', rfl, rfl⟩

theorem Splits.toList {line time : String} {fields : List (String × String)}
    (h : Splits line time fields) : line.toList = time.toList ++ behindTime fields := by
  rw [h.line, behindTime]
  simp [List.flatMap_map]

theorem behindTime_inj {fields fields' : List (String × String)}
    (keys : ∀ field ∈ fields, field.1.toList.all isKeyChar)
    (keys' : ∀ field ∈ fields', field.1.toList.all isKeyChar)
    (values : ∀ field ∈ fields, isValue field.2.toList)
    (values' : ∀ field ∈ fields', isValue field.2.toList)
    (same : behindTime fields = behindTime fields') : fields = fields' := by
  induction fields generalizing fields' with
  | nil =>
    cases fields' with
    | nil => rfl
    | cons field fields' =>
      rw [behindTime_cons] at same
      cases same
  | cons field fields ih =>
    cases fields' with
    | nil =>
      rw [behindTime_cons] at same
      cases same
    | cons field' fields' =>
      obtain ⟨key, value⟩ := field
      obtain ⟨key', value'⟩ := field'
      rw [behindTime_cons, behindTime_cons] at same
      rw [List.forall_mem_cons] at keys keys' values values'
      have stops {rest : List Char} : ∀ c ∈ ('=' :: rest).head?, ¬ isKeyChar c := by
        rintro _ ⟨rfl⟩
        decide
      obtain ⟨sameKey, behind⟩ := append_inj_of_first isKeyChar (List.all_eq_true.mp keys.1)
        (List.all_eq_true.mp keys'.1) stops stops (List.cons.inj same).2
      obtain ⟨sameValue, rest⟩ := value_inj values.1 values'.1 (behindTime_stops _)
        (behindTime_stops _) (List.cons.inj behind).2
      obtain rfl : key = key' := String.toList_injective sameKey
      obtain rfl : value = value' := String.toList_injective sameValue
      rw [ih keys.2 keys'.2 values.2 values'.2 rest]

/-- A line is a line of one time and one list of fields only. -/
theorem Splits.unique {line time time' : String} {fields fields' : List (String × String)}
    (h : Splits line time fields) (h' : Splits line time' fields') :
    time = time' ∧ fields = fields' := by
  obtain ⟨times, rest⟩ := append_inj_of_first isPlain (List.all_eq_true.mp h.plain)
    (List.all_eq_true.mp h'.plain) (behindTime_stops fields).not_isPlain
    (behindTime_stops fields').not_isPlain (h.toList.symm.trans h'.toList)
  exact ⟨String.toList_injective times, behindTime_inj h.keys h'.keys h.values h'.values rest⟩

/-! ## Words -/

/-- None of the characters that end something. -/
def isSafe (c : Char) : Bool := isPlain c && isInner c

theorem isSafe_of_isDigit {c : Char} (digit : c.isDigit) : isSafe c := by
  have apart (other : Char) (other_not : other.isDigit = false) : c ≠ other := by
    rintro rfl
    exact Bool.false_ne_true (other_not.symm.trans digit)
  simp [isSafe, isPlain, isInner, apart ' ' rfl, apart '\n' rfl, apart '"' rfl]

/-- A text of safe characters. -/
def IsWord (text : String) : Prop := ∀ c ∈ text.toList, isSafe c

instance (text : String) : Decidable (IsWord text) :=
  decidable_of_iff (text.toList.all isSafe) List.all_eq_true

theorem IsWord.isValue {text : String} (word : IsWord text) : isValue text.toList := by
  unfold Log.isValue
  split
  next rest starts =>
    have quote := word '"' (starts ▸ List.mem_cons_self ..)
    cases quote
  next => exact List.all_eq_true.mpr fun c member => (Bool.and_eq_true_iff.mp (word c member)).1

theorem IsWord.append {text text' : String} (word : IsWord text) (word' : IsWord text') :
    IsWord (text ++ text') := by
  intro c member
  rw [String.toList_append] at member
  exact (List.mem_append.mp member).elim (word c) (word' c)

theorem isWord_ofList {cs : List Char} (safe : ∀ c ∈ cs, isSafe c) : IsWord (String.ofList cs) := by
  intro c member
  rw [String.toList_ofList] at member
  exact safe c member

theorem isWord_toString (n : Nat) : IsWord (toString n) := by
  rw [Nat.toString_eq_ofList_toDigits]
  exact isWord_ofList fun c member =>
    isSafe_of_isDigit (Nat.isDigit_of_mem_toDigits (by decide) (by decide) member)

theorem isSafe_of_mem_hexDigits {n width : Nat} {c : Char} (h : c ∈ Text.hexDigits n width) :
    isSafe c := by
  induction width generalizing n with
  | zero => cases h
  | succ width ih =>
    rcases List.mem_append.mp h with front | last
    · exact ih front
    · rw [List.mem_singleton.mp last]
      exact (by decide : ∀ k < 16, isSafe (Text.hexDigit k)) _ (Nat.mod_lt _ (by decide))

theorem isWord_hexByte (b : UInt8) : IsWord (Text.hexByte b) :=
  isWord_ofList fun _ => isSafe_of_mem_hexDigits

theorem isWord_hexBytes (bytes : List UInt8) : IsWord (Text.hexBytes bytes) := by
  refine isWord_ofList fun c member => ?_
  obtain ⟨b, -, digit⟩ := List.mem_flatMap.mp member
  exact isSafe_of_mem_hexDigits digit

theorem isWord_outcome (r : Record) : IsWord r.outcome := by
  unfold Record.outcome
  split
  next => decide
  next fault _ => cases fault <;> (simp only [Fault.kind]; decide)

theorem isWord_name (purpose : Purpose) : IsWord purpose.name := by
  cases purpose <;> (simp only [Purpose.name]; decide)

theorem isWord_text (time : Instant) : IsWord time.text := by
  have digits {width n : Nat} : ∀ c ∈ Date.digits width n, isSafe c :=
    fun c member => isSafe_of_isDigit (Date.isDigit_of_mem_digits member)
  have year (year : Int) : ∀ c ∈ Date.yearDigits year, isSafe c := by
    intro c member
    rw [Date.yearDigits_eq] at member
    rcases List.mem_append.mp member with sign | body
    · rcases Date.mem_yearSign sign with rfl | rfl <;> rfl
    · exact digits c body
  have behind {front rest : List Char} {mark : Char} (front_safe : ∀ c ∈ front, isSafe c)
      (safe : isSafe mark = true) (rest_safe : ∀ c ∈ rest, isSafe c) :
      ∀ c ∈ front ++ mark :: rest, isSafe c :=
    List.forall_mem_append.mpr ⟨front_safe, List.forall_mem_cons.mpr ⟨safe, rest_safe⟩⟩
  -- The pieces are joined from the left, so the zone comes off first and the year last.
  refine isWord_ofList (behind ?seconds rfl (List.forall_mem_nil _))
  case seconds =>
    refine behind (behind (behind (behind ?day rfl digits) rfl digits) rfl digits) rfl digits
    case day => exact behind (behind (year _) rfl digits) rfl digits

/-! ## Newlines -/

/-- The number of newlines in a text. -/
def newlines (text : String) : Nat := text.toList.count '\n'

theorem newlines_append (text text' : String) :
    newlines (text ++ text') = newlines text + newlines text' := by
  rw [newlines, String.toList_append, List.count_append, newlines, newlines]

theorem newlines_of_not_mem {text : String} (free : '\n' ∉ text.toList) : newlines text = 0 :=
  List.count_eq_zero.mpr free

theorem newlines_of_isWord {text : String} (word : IsWord text) : newlines text = 0 :=
  newlines_of_not_mem fun member => by cases word '\n' member

theorem newlines_join (texts : List String) :
    newlines (String.join texts) = (texts.map newlines).sum := by
  induction texts with
  | nil => rfl
  | cons text texts ih => rw [String.join_cons, newlines_append, ih, List.map_cons, List.sum_cons]

/-! ## The fields of a record -/

namespace Record

/-- The name of the command that a record is about. -/
def command? (r : Record) : Option String :=
  match r.purpose with
  | .write _ command _ => some command
  | _ => none

/-- The parts of a record that may be any text. -/
def freeTexts (r : Record) : List String := r.command?.toList ++ (r.fault.map Fault.message).toList

/-- All keys, in order. -/
def keys : List String :=
  ["ch", "op"] ++ ["batch", "point", "corr", "slave", "fc", "addr", "qty"] ++
    ["outcome", "attempts", "latency_ms"] ++ ["error"] ++ ["req", "resp"]

theorem keys_sublist (r : Record) (level : LogLevel) :
    ((r.fields level).map Prod.fst).Sublist keys := by
  unfold fields keys
  simp only [List.map_append]
  refine ((((List.Sublist.refl _).append ?purpose).append (.refl _)).append ?fault).append ?frames
  case purpose =>
    cases r.purpose with
    | read => exact .cons_cons _ (.cons _ (.cons _ (.refl _)))
    | write => exact .cons _ (.refl _)
    | connect => exact List.nil_sublist _
  case fault =>
    cases r.fault with
    | none => exact List.nil_sublist _
    | some fault => exact .refl _
  case frames =>
    split
    · exact .refl _
    · exact List.nil_sublist _

/-- Each key of a line is there once. -/
theorem nodup_keys (r : Record) (level : LogLevel) : ((r.fields level).map Prod.fst).Nodup :=
  (r.keys_sublist level).nodup (by decide)

theorem isKeyChar_key (r : Record) (level : LogLevel) :
    ∀ field ∈ r.fields level, field.1.toList.all isKeyChar := by
  intro field member
  exact (by decide : ∀ key ∈ keys, key.toList.all isKeyChar) field.1
    ((r.keys_sublist level).subset (List.mem_map_of_mem member))

/-- The fields of a record that hold free texts. -/
def freeFields (r : Record) : List (String × String) :=
  (r.command?.map fun command => ("corr", command)).toList ++
    (r.fault.map fun fault => ("error", quoted fault.message)).toList

end Record

/-- The values of fields are words but for some of them. -/
def WordsBut (free fields : List (String × String)) : Prop :=
  ∃ words, (∀ field ∈ words, IsWord field.2) ∧ fields.Perm (words ++ free)

namespace WordsBut

variable {free free' fields fields' words : List (String × String)}

theorem all (fields : List (String × String)) : WordsBut fields fields :=
  ⟨[], List.forall_mem_nil _, .refl _⟩

theorem none (isWord : ∀ field ∈ words, IsWord field.2) : WordsBut [] words :=
  ⟨words, isWord, .of_eq (List.append_nil _).symm⟩

theorem append (h : WordsBut free fields) (h' : WordsBut free' fields') :
    WordsBut (free ++ free') (fields ++ fields') := by
  obtain ⟨words, isWord, perm⟩ := h
  obtain ⟨words', isWord', perm'⟩ := h'
  refine ⟨words ++ words', List.forall_mem_append.mpr ⟨isWord, isWord'⟩, ?_⟩
  calc fields ++ fields'
    List.Perm _ ((words ++ free) ++ (words' ++ free')) := perm.append perm'
    List.Perm _ ((words ++ words') ++ (free ++ free')) := by
      rw [List.append_assoc, List.append_assoc]
      exact (List.perm_append_comm_assoc free words' free').append_left words

theorem before (h : WordsBut free fields) (isWord : ∀ field ∈ words, IsWord field.2) :
    WordsBut free (words ++ fields) := (none isWord).append h

theorem after (h : WordsBut free fields) (isWord : ∀ field ∈ words, IsWord field.2) :
    WordsBut free (fields ++ words) := by
  have done := h.append (none isWord)
  rwa [List.append_nil] at done

end WordsBut

namespace Record

theorem isWord_span (s : Span) : ∀ field ∈ spanFields s, IsWord field.2 := by
  have hex : IsWord ("0x" ++ Text.hexByte s.function) :=
    IsWord.append (by decide) (isWord_hexByte _)
  simp only [spanFields, List.forall_mem_cons]
  exact ⟨isWord_toString _, hex, isWord_toString _, isWord_toString _, List.forall_mem_nil _⟩

theorem purposeFields_wordsBut (r : Record) :
    WordsBut (r.command?.map fun command => ("corr", command)).toList
      (purposeFields r.purpose) := by
  unfold command?
  cases r.purpose with
  | read batch s =>
    show WordsBut [] ([("batch", toString batch)] ++ spanFields s)
    exact .before (.none (isWord_span s)) (List.forall_mem_singleton.mpr (isWord_toString _))
  | write point command s =>
    show WordsBut [("corr", command)]
      ([("point", toString point.toNat)] ++ ([("corr", command)] ++ spanFields s))
    exact .before (.after (.all _) (isWord_span s))
      (List.forall_mem_singleton.mpr (isWord_toString _))
  | connect => exact .all []

theorem fields_wordsBut (r : Record) (level : LogLevel) :
    WordsBut r.freeFields (r.fields level) := by
  unfold fields freeFields
  refine .after (.append (.after (.before (purposeFields_wordsBut r) ?head) ?counts) ?fault) ?frames
  case head =>
    simp only [List.forall_mem_cons]
    exact ⟨isWord_toString _, isWord_name _, List.forall_mem_nil _⟩
  case counts =>
    simp only [List.forall_mem_cons]
    exact ⟨isWord_outcome r, isWord_toString _, isWord_toString _, List.forall_mem_nil _⟩
  case fault => cases r.fault <;> exact .all _
  case frames =>
    split
    · simp only [List.forall_mem_cons]
      exact ⟨isWord_hexBytes _, isWord_hexBytes _, List.forall_mem_nil _⟩
    · exact List.forall_mem_nil _

/-! ## What a line says -/

/-- The text of a fault without its double quotes. -/
def inner (text : String) : String :=
  String.ofList (text.toList.map fun c => if c = '"' then '\'' else c)

theorem quoted_eq (text : String) : (quoted text).toList = '"' :: ((inner text).toList ++ ['"']) := by
  rw [quoted, inner, String.toList_ofList, String.toList_ofList]
  rfl

theorem quote_not_mem_inner (text : String) : '"' ∉ (inner text).toList := by
  rw [inner, String.toList_ofList, List.mem_map]
  rintro ⟨c, -, same⟩
  split at same
  next => cases same
  next other => exact other same

/-- Taking double quotes away leaves all newlines. -/
theorem newlines_inner (text : String) : newlines (inner text) = newlines text := by
  unfold newlines inner
  rw [String.toList_ofList, List.count_eq_countP, List.countP_map, List.count_eq_countP]
  refine List.countP_congr fun c _ => ?_
  show ((if c = '"' then '\'' else c) == '\n') = true ↔ _
  split
  next quote =>
    subst quote
    decide
  next => rfl

theorem newlines_quoted (text : String) : newlines (quoted text) = newlines text := by
  rw [← newlines_inner text, newlines, newlines, quoted_eq]
  simp

theorem isValue_quoted_iff (text : String) :
    isValue (quoted text).toList ↔ '\n' ∉ text.toList := by
  have free : '\n' ∉ (inner text).toList ↔ '\n' ∉ text.toList := by
    rw [← List.count_eq_zero, ← List.count_eq_zero]
    exact Eq.congr_left (newlines_inner text)
  rw [quoted_eq, isValue_quoted, List.all_eq_true, ← free]
  constructor
  · intro inside newline
    cases inside '\n' newline
  · intro free c member
    refine decide_eq_true ⟨?_, ?_⟩
    · rintro rfl
      exact quote_not_mem_inner text member
    · rintro rfl
      exact free member

theorem newlines_line (r : Record) (level : LogLevel) :
    newlines (r.line level) = 1 + (r.freeTexts.map newlines).sum := by
  have field : ∀ field ∈ r.fields level, newlines (fieldText field) = newlines field.2 := by
    intro field member
    have key : newlines field.1 = 0 := newlines_of_not_mem fun newline =>
      Bool.false_ne_true (List.all_eq_true.mp (r.isKeyChar_key level field member) '\n' newline)
    rw [fieldText, newlines_append, newlines_append, newlines_append, key]
    exact Nat.zero_add _
  have values : ((r.fields level).map (newlines ∘ Prod.snd)).sum =
      (r.freeTexts.map newlines).sum := by
    obtain ⟨words, isWord, perm⟩ := r.fields_wordsBut level
    have none : (words.map (newlines ∘ Prod.snd)).sum = 0 := by
      refine List.sum_eq_zero fun n member => ?_
      obtain ⟨field, inside, same⟩ := List.mem_map.mp member
      exact same ▸ newlines_of_isWord (isWord field inside)
    rw [(perm.map _).sum_eq, List.map_append, List.sum_append, none, Nat.zero_add]
    unfold freeFields freeTexts
    cases r.command? <;> cases r.fault <;> simp [newlines_quoted]
  calc newlines (r.line level)
      = newlines r.time.text + ((r.fields level).map (newlines ∘ fieldText)).sum + 1 := by
        rw [line, newlines_append, newlines_append, newlines_join, List.map_map]
        rfl
    _ = ((r.fields level).map (newlines ∘ Prod.snd)).sum + 1 := by
        rw [newlines_of_isWord (isWord_text _), Nat.zero_add]
        exact congrArg (List.sum · + 1) (List.map_congr_left field)
    _ = 1 + (r.freeTexts.map newlines).sum := by rw [values, Nat.add_comm]

/-- The name of the command is a value, and the text of the fault has no newline. -/
structure Fits (r : Record) : Prop where
  command : ∀ command ∈ r.command?, isValue command.toList
  message : ∀ fault ∈ r.fault, '\n' ∉ fault.message.toList

theorem freeFields_values_iff (r : Record) :
    (∀ field ∈ r.freeFields, isValue field.2.toList) ↔ r.Fits := by
  unfold freeFields
  rw [List.forall_mem_append]
  constructor
  · rintro ⟨command, message⟩
    refine ⟨fun name shown => ?_, fun fault shown => ?_⟩
    · exact command ("corr", name) (by simp [Option.mem_def.mp shown])
    · refine (isValue_quoted_iff _).mp ?_
      exact message ("error", quoted fault.message) (by simp [Option.mem_def.mp shown])
  · intro fits
    constructor
    · intro field member
      obtain ⟨name, shown, rfl⟩ := Option.map_eq_some_iff.mp (Option.mem_toList.mp member)
      exact fits.command name shown
    · intro field member
      obtain ⟨fault, shown, rfl⟩ := Option.map_eq_some_iff.mp (Option.mem_toList.mp member)
      exact (isValue_quoted_iff _).mpr (fits.message fault shown)

theorem splits_iff_fits (r : Record) (level : LogLevel) :
    Splits (r.line level) r.time.text (r.fields level) ↔ r.Fits := by
  obtain ⟨words, isWord, perm⟩ := r.fields_wordsBut level
  rw [← freeFields_values_iff]
  constructor
  · intro splits field member
    exact splits.values field (perm.mem_iff.mpr (List.mem_append_right _ member))
  · intro free
    refine ⟨List.all_eq_true.mpr fun c member => ?_, r.isKeyChar_key level,
      fun field member => ?_, rfl⟩
    · exact (Bool.and_eq_true_iff.mp (isWord_text _ c member)).1
    · rcases List.mem_append.mp (perm.mem_iff.mp member) with word | member
      · exact (isWord field word).isValue
      · exact free field member

theorem lookup_outcome (r : Record) (level : LogLevel) :
    (r.fields level).lookup "outcome" = some r.outcome := by
  unfold fields purposeFields
  cases r.purpose <;> simp [spanFields, List.lookup_cons]

/-- What the line of a record says. -/
structure Says (r : Record) (level : LogLevel) : Prop where
  ends : (r.line level).toList.getLast? = some '\n'
  /-- Besides the one at the end, the newlines of the free texts are there, and no others. -/
  count : newlines (r.line level) = 1 + (r.freeTexts.map newlines).sum
  error : ∀ fault ∈ r.fault, ("error", quoted fault.message) ∈ r.fields level ∧
    ∃ inner, (quoted fault.message).toList = '"' :: (inner ++ ['"']) ∧ '"' ∉ inner
  keys : ((r.fields level).map Prod.fst).Nodup
  outcome : (r.fields level).lookup "outcome" = some r.outcome
  splits : Splits (r.line level) r.time.text (r.fields level) ↔ r.Fits
  /-- A line whose free texts fit says nothing but what its record says. -/
  only : r.Fits → ∀ time fields, Splits (r.line level) time fields →
    time = r.time.text ∧ fields = r.fields level

/-- The line of a record is one line just where its free texts have no newline, and it splits into
the record's time and fields just where they fit.  The rest of a record is free. -/
theorem line_says (r : Record) (level : LogLevel) : r.Says level where
  ends := by
    rw [line, String.toList_append]
    exact List.getLast?_concat
  count := r.newlines_line level
  error fault shown := by
    obtain ⟨words, -, perm⟩ := r.fields_wordsBut level
    refine ⟨perm.mem_iff.mpr (List.mem_append_right _ (List.mem_append_right _ ?_)),
      (inner fault.message).toList, quoted_eq _, quote_not_mem_inner _⟩
    rw [Option.mem_def.mp shown]
    exact List.mem_singleton_self _
  keys := r.nodup_keys level
  outcome := r.lookup_outcome level
  splits := r.splits_iff_fits level
  only fits _ _ splits := splits.unique ((r.splits_iff_fits level).mpr fits)

/-- The name of a command breaks the line of its record, and it makes a line that says of a write
that has failed that it went well. -/
theorem command_breaks_line :
    let write (command : String) : Record :=
      { channel := 1, time := 0, purpose := .write 2 command ⟨3, 6, 4, 1⟩,
        fault := some (.backoff 100) }
    newlines ((write "a\nb").line .info) = 2 ∧
      Splits ((write "a outcome=ok").line .info) "1970-01-01T00:00:00.000Z"
        [("ch", "1"), ("op", "write"), ("point", "2"), ("corr", "a"), ("outcome", "ok"),
          ("slave", "3"), ("fc", "0x06"), ("addr", "4"), ("qty", "1"), ("outcome", "backoff"),
          ("attempts", "1"), ("latency_ms", "0"),
          ("error", "\"Reconnect suppressed, next attempt in 100ms\"")] := by
  refine ⟨?lines, ?time, ?keys, ?values, ?line⟩
  case lines =>
    rw [newlines_line]
    decide +kernel
  case time => decide +kernel
  case keys => decide +kernel
  case values => decide +kernel
  case line => decide +kernel

end Record

end Fieldbus.Log
