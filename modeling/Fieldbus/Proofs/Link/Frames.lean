import Fieldbus.Link.Tcp

/-!
# Streams of reply frames

The other side of a network link sends one frame after another.  What was received so far is any
prefix of this stream, so the last frame of a buffer may be cut anywhere, also in its header.

`seek_stream` says what `Tcp.seek` does with such a buffer: it takes whole frames off, up to the
one that it looks for, and leaves what begins a frame again.
-/

namespace Fieldbus.Tcp

/-! ## Headers -/

/-- The header that a data unit gets. -/
def Header.of (transaction : UInt16) (unit : UInt8) (pdu : Pdu) : Header :=
  ⟨transaction, 0, UInt16.ofNat (pdu.size + 1), unit⟩

variable {transaction : UInt16} {unit : UInt8} {pdu : Pdu}

theorem length_encode : (encode transaction unit pdu).length = headerSize + pdu.size := by
  simp [encode, headerSize, Pdu.size, wordBytes]
  omega

theorem take_encode (rest : List UInt8) :
    (encode transaction unit pdu ++ rest).take headerSize =
      wordBytes transaction ++ [0, 0] ++ wordBytes (UInt16.ofNat (pdu.size + 1)) ++ [unit] := by
  simp [encode, headerSize, wordBytes]

theorem drop_encode : (encode transaction unit pdu).drop headerSize = pdu.bytes := by
  simp [encode, headerSize, wordBytes]

theorem toNat_lengthField : (UInt16.ofNat (pdu.size + 1)).toNat = pdu.size + 1 := by
  have fits : pdu.size ≤ maxPduSize := pdu.fits
  have bound : maxPduSize = 253 := rfl
  rw [UInt16.toNat_ofNat']
  omega

theorem pduSize_of (transaction : UInt16) (unit : UInt8) (pdu : Pdu) :
    (Header.of transaction unit pdu).pduSize = pdu.size := by
  rw [Header.pduSize, Header.of, toNat_lengthField]
  exact Nat.add_sub_cancel ..

theorem parse_encode (nonempty : 0 < pdu.size) (rest : List UInt8) :
    Header.parse ((encode transaction unit pdu ++ rest).take headerSize) =
      .ok (.of transaction unit pdu) := by
  have fits : pdu.size ≤ maxPduSize := pdu.fits
  have length : ¬ (UInt16.ofNat (pdu.size + 1) < 2 ∨
      maxPduSize + 1 < (UInt16.ofNat (pdu.size + 1)).toNat) := by
    rw [UInt16.lt_iff_toNat_lt, toNat_lengthField]
    simp
    omega
  have protocol : wordOf 0 0 = 0 := rfl
  rw [take_encode]
  simp only [wordBytes, List.cons_append, List.nil_append, Header.parse, wordOf_bytes,
    protocol, ne_eq, not_true_eq_false, if_false, if_neg length]
  rfl

theorem frameSize?_encode (nonempty : 0 < pdu.size) (rest : List UInt8) :
    frameSize? (encode transaction unit pdu ++ rest) = .ok (some (headerSize + pdu.size)) := by
  have long : ¬ (encode transaction unit pdu ++ rest).length < headerSize := by
    rw [List.length_append, length_encode]
    omega
  have whole : ¬ (encode transaction unit pdu ++ rest).length < headerSize + pdu.size := by
    rw [List.length_append, length_encode]
    omega
  rw [frameSize?, if_neg long, parse_encode nonempty]
  simp only [Except.map, pduSize_of, if_neg whole]

/-- A frame that is cut has no size yet, wherever the cut is. -/
theorem frameSize?_cut (nonempty : 0 < pdu.size) {buffer : List UInt8}
    (start : buffer <+: encode transaction unit pdu)
    (cut : buffer.length < headerSize + pdu.size) : frameSize? buffer = .ok none := by
  unfold frameSize?
  split
  next => rfl
  next long =>
    obtain ⟨rest, whole⟩ := start
    have header : Header.parse ((encode transaction unit pdu ++ []).take headerSize) = _ :=
      parse_encode nonempty []
    rw [List.append_nil, ← whole, List.take_append_of_le_length (by omega)] at header
    rw [header]
    simp only [Except.map, pduSize_of, if_pos cut]

/-! ## Streams -/

/-- A reply of the other side: the number of the request that it answers, and what it says. -/
structure Reply where
  request : Nat
  unit : UInt8
  pdu : Pdu
  nonempty : 0 < pdu.size

/-- The transaction of a request, where the first one has the transaction `first`. -/
def transactionOf (first : UInt16) (request : Nat) : UInt16 := first + UInt16.ofNat request

/-- Requests with one transaction are whole rounds of transactions apart. -/
theorem exists_rounds {first : UInt16} {i j : Nat}
    (same : transactionOf first i = transactionOf first j) (le : i ≤ j) :
    ∃ rounds, j = i + 65536 * rounds := by
  have numbers := congrArg UInt16.toNat same
  simp only [transactionOf, UInt16.toNat_add, UInt16.toNat_ofNat'] at numbers
  have bound := first.toNat_lt
  exact ⟨(j - i) / 65536, by omega⟩

def Reply.frame (first : UInt16) (r : Reply) : List UInt8 :=
  encode (transactionOf first r.request) r.unit r.pdu

/-- The bytes of replies, one behind the other. -/
def stream (first : UInt16) (replies : List Reply) : List UInt8 :=
  replies.flatMap (Reply.frame first)

variable {first : UInt16}

@[simp] theorem stream_nil : stream first [] = [] := rfl

@[simp] theorem stream_cons (r : Reply) (replies : List Reply) :
    stream first (r :: replies) = r.frame first ++ stream first replies := rfl

@[simp] theorem stream_append (earlier later : List Reply) :
    stream first (earlier ++ later) = stream first earlier ++ stream first later :=
  List.flatMap_append

theorem Reply.length_frame (first : UInt16) (r : Reply) : (r.frame first).length = headerSize + r.pdu.size :=
  length_encode

theorem Reply.frame_pos (first : UInt16) (r : Reply) : 0 < (r.frame first).length := by
  rw [r.length_frame first]
  exact Nat.lt_add_right _ (by decide)

theorem Reply.transaction_frame (r : Reply) :
    wordOf ((r.frame first).getD 0 0) ((r.frame first).getD 1 0) =
      transactionOf first r.request := by
  simp [Reply.frame, encode, wordBytes]

/-! ## Seeking -/

theorem seek_cut {transaction : UInt16} {buffer : List UInt8}
    (cut : frameSize? buffer = .ok none) : seek transaction buffer = (.ok none, buffer) := by
  rw [seek]
  split
  next found => rw [cut] at found; cases found
  next => rfl
  next found => rw [cut] at found; cases found

theorem seek_frame (transaction : UInt16) (r : Reply) (rest : List UInt8) :
    seek transaction (r.frame first ++ rest) =
      if transactionOf first r.request = transaction then (.ok (some (r.frame first)), rest)
      else seek transaction rest := by
  have whole : frameSize? (r.frame first ++ rest) = .ok (some (r.frame first).length) := by
    rw [r.length_frame first]
    exact frameSize?_encode r.nonempty rest
  rw [seek]
  split
  next found => rw [whole] at found; cases found
  next found => rw [whole] at found; cases found
  next size found =>
    rw [whole] at found
    cases found
    simp only [List.take_left, List.drop_left, r.transaction_frame]

/-- The bytes begin a frame of the replies and end inside it, if there is any. -/
def CutFrame (first : UInt16) (replies : List Reply) (bytes : List UInt8) : Prop :=
  ∀ r rest, replies = r :: rest → bytes.length < (r.frame first).length

/-- A reply of the transaction ends behind bytes in which only others were found. -/
theorem CutFrame.behind {transaction : UInt16} {skipped later earlier more : List Reply}
    {r : Reply} {rest : List UInt8} (cut : CutFrame first later rest)
    (foreign : ∀ r ∈ skipped, transactionOf first r.request ≠ transaction)
    (own : transactionOf first r.request = transaction)
    (h : skipped ++ later = earlier ++ r :: more) :
    (stream first skipped ++ rest).length < (stream first (earlier ++ [r])).length := by
  rcases List.append_eq_append_iff.mp h with ⟨between, rfl, behind⟩ | ⟨between, rfl, behind⟩
  · cases between with
    | nil =>
      have short := cut r more behind
      simpa using short
    | cons x between =>
      have short := cut x _ behind
      simp only [stream_append, stream_cons, List.length_append]
      omega
  · cases between with
    | nil =>
      have short := cut r more behind.symm
      simpa using short
    | cons x between =>
      obtain ⟨rfl, -⟩ := List.cons.inj behind
      exact absurd own (foreign _ (by simp))

/-- What seeking a transaction finds in bytes that begin the stream of the replies. -/
inductive Sought (first transaction : UInt16) (replies : List Reply) (buffer : List UInt8) :
    Except Fault (Option (List UInt8)) × List UInt8 → Prop where
  /-- Whole frames of other transactions, and the begin of one more. -/
  | cut {skipped left : List Reply} {rest : List UInt8} :
    replies = skipped ++ left →
    buffer = stream first skipped ++ rest →
    rest <+: stream first left →
    (∀ r ∈ skipped, transactionOf first r.request ≠ transaction) →
    CutFrame first left rest →
    Sought first transaction replies buffer (.ok none, rest)
  /-- The frame of the transaction behind whole frames of others. -/
  | found {skipped left : List Reply} {r : Reply} {rest : List UInt8} :
    replies = skipped ++ r :: left →
    buffer = stream first (skipped ++ [r]) ++ rest →
    rest <+: stream first left →
    (∀ r ∈ skipped, transactionOf first r.request ≠ transaction) →
    transactionOf first r.request = transaction →
    Sought first transaction replies buffer (.ok (some (r.frame first)), rest)

/-- One more frame of another transaction before what is sought. -/
theorem Sought.cons {transaction : UInt16} {replies : List Reply} {buffer : List UInt8}
    {result : Except Fault (Option (List UInt8)) × List UInt8} {r : Reply}
    (other : transactionOf first r.request ≠ transaction)
    (h : Sought first transaction replies buffer result) :
    Sought first transaction (r :: replies) (r.frame first ++ buffer) result := by
  cases h with
  | @cut skipped left rest whole bytes start foreign cut =>
    subst whole bytes
    exact .cut (List.cons_append ..).symm (by simp) start
      (List.forall_mem_cons.mpr ⟨other, foreign⟩) cut
  | @found skipped left x rest whole bytes start foreign own =>
    subst whole bytes
    exact .found (List.cons_append ..).symm (by simp) start
      (List.forall_mem_cons.mpr ⟨other, foreign⟩) own

/-- Seeking takes whole frames off, up to the one of the transaction or to one that is not all
there. -/
theorem seek_stream (transaction : UInt16) {replies : List Reply} {buffer : List UInt8}
    (h : buffer <+: stream first replies) :
    Sought first transaction replies buffer (seek transaction buffer) := by
  induction replies generalizing buffer with
  | nil =>
    have empty : buffer = [] := List.prefix_nil.mp h
    subst empty
    rw [seek_cut rfl]
    exact .cut (List.nil_append _).symm rfl h (by simp) (by simp [CutFrame])
  | cons r replies ih =>
    rcases Nat.lt_or_ge buffer.length (r.frame first).length with short | long
    · have start : buffer <+: r.frame first :=
        List.prefix_of_prefix_length_le h (List.prefix_append _ _) (Nat.le_of_lt short)
      have cut : CutFrame first (r :: replies) buffer := by
        rintro x rest same
        cases same
        exact short
      rw [r.length_frame first] at short
      rw [seek_cut (frameSize?_cut r.nonempty start short)]
      exact .cut (List.nil_append _).symm rfl h (by simp) cut
    · have start : r.frame first <+: buffer :=
        List.prefix_of_prefix_length_le (List.prefix_append _ _) h long
      obtain ⟨tail, rfl⟩ := start
      have further : tail <+: stream first replies := (List.prefix_append_right_inj _).mp h
      rw [seek_frame]
      split
      next own => exact .found (List.nil_append _).symm (by simp) further (by simp) own
      next other => exact (ih further).cons other

end Fieldbus.Tcp
