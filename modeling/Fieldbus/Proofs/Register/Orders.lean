import Mathlib.GroupTheory.SpecificGroups.KleinFour
import Fieldbus.Pdu.Basic
import Fieldbus.Proofs.Register.Packing

/-!
# The group of byte orders

A byte order is two choices, whether words are reversed and whether the bytes of a word are swapped.
Arranging words in one order and then in another is arranging them in the order whose choices differ
from both, so the orders are a Klein four-group that acts on the words of a value
(`ByteOrder.arrange_mul`).

What a 64-bit register does with shifts is what `packWords` and `unpackWords` do with numbers
(`packWords_eq_foldl`, `unpackWords_eq_map`), and up to four words go through it unchanged.
`orders_act_packing_exact` puts both together.
-/

namespace Fieldbus

namespace ByteOrder

/-! ## Choices -/

@[simp] theorem reversesWords_ofChoices (reverses swaps : Bool) :
    (ofChoices reverses swaps).reversesWords = reverses := by
  cases reverses <;> cases swaps <;> rfl

@[simp] theorem swapsBytes_ofChoices (reverses swaps : Bool) :
    (ofChoices reverses swaps).swapsBytes = swaps := by
  cases reverses <;> cases swaps <;> rfl

@[simp] theorem ofChoices_choices (order : ByteOrder) :
    ofChoices order.reversesWords order.swapsBytes = order := by
  cases order <;> rfl

/-- Orders with the same choices are the same. -/
theorem ext_choices {first second : ByteOrder}
    (words : first.reversesWords = second.reversesWords)
    (bytes : first.swapsBytes = second.swapsBytes) : first = second := by
  rw [← ofChoices_choices first, words, bytes, ofChoices_choices]

/-- An order is two choices. -/
def choices : ByteOrder ≃ Bool × Bool where
  toFun order := (order.reversesWords, order.swapsBytes)
  invFun pair := ofChoices pair.1 pair.2
  left_inv := ofChoices_choices
  right_inv _ := by simp

/-! ## The group -/

instance : Mul ByteOrder := ⟨compose⟩

instance : One ByteOrder := ⟨abcd⟩

/-- Each order is its own inverse. -/
instance : Inv ByteOrder := ⟨id⟩

@[simp] theorem reversesWords_mul (first second : ByteOrder) :
    (first * second).reversesWords = (first.reversesWords != second.reversesWords) :=
  reversesWords_ofChoices ..

@[simp] theorem swapsBytes_mul (first second : ByteOrder) :
    (first * second).swapsBytes = (first.swapsBytes != second.swapsBytes) :=
  swapsBytes_ofChoices ..

@[simp] theorem reversesWords_one : (1 : ByteOrder).reversesWords = false := rfl

@[simp] theorem swapsBytes_one : (1 : ByteOrder).swapsBytes = false := rfl

theorem mul_self (order : ByteOrder) : order * order = 1 :=
  ext_choices (by simp) (by simp)

instance : CommGroup ByteOrder where
  mul_assoc first second third := ext_choices (by simp) (by simp)
  one_mul order := ext_choices (by simp) (by simp)
  mul_one order := ext_choices (by simp) (by simp)
  inv_mul_cancel := mul_self
  mul_comm first second := ext_choices (by simp [bne_comm]) (by simp [bne_comm])

instance : Nontrivial ByteOrder := ⟨abcd, dcba, by decide⟩

instance : IsKleinFour ByteOrder where
  card_four := by
    rw [Nat.card_congr choices, Nat.card_prod]
    simp
  exponent_two := by
    rw [Monoid.exponent_eq_prime_iff Nat.prime_two]
    intro order other
    exact orderOf_eq_prime (by rw [pow_two, mul_self]) other

/-! ## The action on words -/

section Choice

variable {α : Type} {f g : α → α}

/-- Something that is done or not. -/
def doneIf (choice : Bool) (f : α → α) : α → α := if choice then f else id

/-- What undoes itself is done if one of two choices is made, and undone if both are. -/
theorem doneIf_doneIf (undoes : ∀ x, f (f x) = x) (first second : Bool) (x : α) :
    doneIf second f (doneIf first f x) = doneIf (first != second) f x := by
  cases first <;> cases second <;> simp [doneIf, undoes]

theorem doneIf_comm (commute : ∀ x, f (g x) = g (f x)) (first second : Bool) (x : α) :
    doneIf second f (doneIf first g x) = doneIf first g (doneIf second f x) := by
  cases first <;> cases second <;> simp [doneIf, commute]

end Choice

theorem arrange_eq (order : ByteOrder) (words : List UInt16) :
    order.arrange words =
      doneIf order.swapsBytes (List.map swapBytes) (doneIf order.reversesWords List.reverse words) := by
  cases order <;> rfl

/-- One rearrangement after another is that of the product. -/
theorem arrange_mul (first second : ByteOrder) (words : List UInt16) :
    second.arrange (first.arrange words) = (first * second).arrange words := by
  have swapped (ws : List UInt16) : (ws.map swapBytes).map swapBytes = ws := by
    simp [Function.comp_def, swapBytes_swapBytes]
  have commute (ws : List UInt16) : (ws.map swapBytes).reverse = ws.reverse.map swapBytes :=
    List.map_reverse.symm
  calc second.arrange (first.arrange words)
      = doneIf second.swapsBytes (List.map swapBytes)
          (doneIf first.swapsBytes (List.map swapBytes)
            (doneIf second.reversesWords List.reverse
              (doneIf first.reversesWords List.reverse words))) := by
        rw [arrange_eq, arrange_eq, doneIf_comm commute]
    _ = (first * second).arrange words := by
        rw [doneIf_doneIf swapped, doneIf_doneIf List.reverse_reverse, arrange_eq,
          reversesWords_mul, swapsBytes_mul]

/-- A word with swapped bytes has the low byte first. -/
theorem swapBytes_eq (w : UInt16) : swapBytes w = wordOf (lowByte w) (highByte w) := by
  have bound := w.toNat_lt
  have low : w.toNat % 256 % 2 ^ 8 = w.toNat % 256 := Nat.mod_mod ..
  have high : w.toNat / 256 % 2 ^ 8 = w.toNat / 256 := Nat.mod_eq_of_lt (by omega)
  refine UInt16.toNat_inj.mp ?_
  rw [toNat_swapBytes, wordOf, lowByte, highByte, UInt8.toNat_ofNat', UInt8.toNat_ofNat',
    UInt16.toNat_ofNat', low, high]
  omega

/-- Reversing the words and the bytes in each word reverses all bytes. -/
theorem bytes_arrange_dcba (words : List UInt16) :
    (dcba.arrange words).flatMap wordBytes = (words.flatMap wordBytes).reverse := by
  have swapped (w : UInt16) : wordBytes (swapBytes w) = (wordBytes w).reverse := by
    rw [swapBytes_eq, wordBytes, highByte_wordOf, lowByte_wordOf]
    rfl
  calc (dcba.arrange words).flatMap wordBytes
      = words.reverse.flatMap fun w => (wordBytes w).reverse := by
        rw [← funext swapped]
        exact List.flatMap_map ..
    _ = (words.flatMap wordBytes).reverse := (List.reverse_flatMap ..).symm

end ByteOrder

/-! ## Packing by shifts -/

/-- One more word in the low bits of a 64-bit register. -/
def shiftIn (register : UInt64) (w : UInt16) : UInt64 := register <<< 16 ||| w.toUInt64

theorem shiftIn_ofNat (n : Nat) (w : UInt16) :
    shiftIn (.ofNat n) w = .ofNat (n <<< 16 + w.toNat) := by
  have digit := w.toNat_lt
  have shifted : n % 2 ^ 64 * 2 ^ 16 % 2 ^ 64 = n % 2 ^ 48 * 2 ^ 16 := by omega
  refine UInt64.toNat_inj.mp ?_
  rw [shiftIn, UInt64.toNat_or, UInt64.toNat_shiftLeft, UInt64.toNat_ofNat', UInt64.toNat_ofNat',
    UInt16.toNat_toUInt64, Nat.shiftLeft_eq n]
  show (n % 2 ^ 64) <<< 16 % 2 ^ 64 ||| w.toNat = _
  rw [Nat.shiftLeft_eq, shifted, ← Nat.shiftLeft_eq, ← Nat.shiftLeft_add_eq_or_of_lt digit,
    Nat.shiftLeft_eq]
  omega

/-- Packing is shifting in one word after the other. -/
theorem packWords_eq_foldl (words : List UInt16) : packWords words = words.foldl shiftIn 0 :=
  (List.foldl_hom UInt64.ofNat fun n w => shiftIn_ofNat n w).symm

/-- The word at a place of a 64-bit register, counted from the low bits. -/
def wordAt (register : UInt64) (place : Nat) : UInt16 :=
  (register >>> UInt64.ofNat (16 * place)).toUInt16

theorem wordAt_eq (register : UInt64) {place : Nat} (inside : place < 4) :
    wordAt register place = .ofNat (register.toNat >>> (16 * place)) := by
  have amount : 16 * place % 2 ^ 64 % 64 = 16 * place := by omega
  refine UInt16.toNat_inj.mp ?_
  rw [wordAt, UInt64.toNat_toUInt16, UInt64.toNat_shiftRight, UInt64.toNat_ofNat',
    UInt16.toNat_ofNat', amount]

/-- Unpacking shifts every word out, the highest first. -/
theorem unpackWords_eq_map (register : UInt64) {count : Nat} (within : count ≤ 4) :
    unpackWords register count = (List.range count).reverse.map (wordAt register) := by
  unfold unpackWords
  induction count with
  | zero => rfl
  | succ count ih =>
    rw [unpackNat, List.range_succ, List.reverse_append, List.reverse_singleton,
      List.singleton_append, List.map_cons, ih (by omega), wordAt_eq register within]

theorem toNat_packWords {words : List UInt16} (within : words.length ≤ 4) :
    (packWords words).toNat = packNat words := by
  rw [packWords, UInt64.toNat_ofNat']
  refine Nat.mod_eq_of_lt ?_
  calc packNat words
      < 2 ^ (16 * words.length) := packNat_lt words
    _ ≤ 2 ^ 64 := Nat.pow_le_pow_right (by decide) (by omega)

/-- Byte orders are a Klein four-group with `abcd` as unit that acts on words: one rearrangement
after another is that of the product, so each order undoes itself and any two commute, and `dcba`
reverses the bytes of the words.  Shifting up to four words out of a 64-bit register and in again
leaves its low bits, and shifting them in and out again leaves them as they are. -/
theorem orders_act_packing_exact :
    IsKleinFour ByteOrder ∧ (1 : ByteOrder) = .abcd ∧
    (∀ (first second : ByteOrder) (words : List UInt16),
      second.arrange (first.arrange words) = (first * second).arrange words ∧
        second.arrange (first.arrange words) = first.arrange (second.arrange words)) ∧
    (∀ (order : ByteOrder) (words : List UInt16), order.arrange (order.arrange words) = words) ∧
    (∀ words : List UInt16,
      (ByteOrder.dcba.arrange words).flatMap wordBytes = (words.flatMap wordBytes).reverse) ∧
    (∀ (register : UInt64) (count : Nat), count ≤ 4 →
      unpackWords register count = (List.range count).reverse.map (wordAt register) ∧
        (packWords (unpackWords register count)).toNat = register.toNat % 2 ^ (16 * count)) ∧
    ∀ words : List UInt16, packWords words = words.foldl shiftIn 0 ∧
      (words.length ≤ 4 → unpackWords (packWords words) words.length = words) := by
  refine ⟨inferInstance, rfl, fun first second words => ⟨?_, ?_⟩, ByteOrder.arrange_arrange,
    ByteOrder.bytes_arrange_dcba, fun register count within => ⟨?_, ?_⟩, fun words => ⟨?_, ?_⟩⟩
  · exact first.arrange_mul second words
  · rw [first.arrange_mul second, second.arrange_mul first, mul_comm]
  · exact unpackWords_eq_map register within
  · have four : (unpackWords register count).length ≤ 4 := by rwa [unpackWords, length_unpackNat]
    rw [toNat_packWords four, unpackWords, packNat_unpackNat]
  · exact packWords_eq_foldl words
  · intro within
    rw [unpackWords, toNat_packWords within, unpackNat_packNat]

theorem full_register_packing_exact :
    4 ≤ 4 ∧ unpackWords 0xFFFF800000007FFF 4 = [0xFFFF, 0x8000, 0, 0x7FFF] ∧
      (packWords (unpackWords 0xFFFF800000007FFF 4)).toNat =
        (0xFFFF800000007FFF : UInt64).toNat % 2 ^ (16 * 4) ∧
      [0xFFFF, 0x8000, 0, 0x7FFF].length ≤ 4 ∧
      unpackWords (packWords [0xFFFF, 0x8000, 0, 0x7FFF]) 4 = [0xFFFF, 0x8000, 0, 0x7FFF] := by
  obtain ⟨-, -, -, -, -, register, words⟩ := orders_act_packing_exact
  exact ⟨by decide, by decide, (register 0xFFFF800000007FFF 4 (by decide)).2, by decide,
    (words [0xFFFF, 0x8000, 0, 0x7FFF]).2 (by decide)⟩

end Fieldbus
