import Mathlib.Tactic.Ring
import Fieldbus.Register.ByteOrder

/-!
# Words and numbers

Words in one order are the digits of a number, and arranging words undoes itself.  So nothing is lost
between the words of a device and the number that they hold (`packNat_unpackNat`,
`unpackNat_packNat` and `ByteOrder.arrange_arrange`).
-/

namespace Fieldbus

/-! ## Arranging -/

theorem ByteOrder.toNat_swapBytes (w : UInt16) :
    (swapBytes w).toNat = w.toNat % 2 ^ 8 * 2 ^ 8 + w.toNat / 2 ^ 8 := by
  have bound := w.toNat_lt
  have low : w.toNat * 2 ^ 8 % 2 ^ 16 = w.toNat % 2 ^ 8 * 2 ^ 8 := by omega
  have high : w.toNat / 2 ^ 8 < 2 ^ 8 := by omega
  rw [swapBytes, UInt16.toNat_or, UInt16.toNat_shiftLeft, UInt16.toNat_shiftRight]
  show (w.toNat <<< 8 % 2 ^ 16) ||| (w.toNat >>> 8) = _
  rw [Nat.shiftLeft_eq, Nat.shiftRight_eq_div_pow, low, ← Nat.shiftLeft_eq,
    Nat.shiftLeft_add_eq_or_of_lt high]

theorem ByteOrder.swapBytes_swapBytes (w : UInt16) : swapBytes (swapBytes w) = w := by
  have bound := w.toNat_lt
  refine UInt16.toNat_inj.mp ?_
  rw [toNat_swapBytes, toNat_swapBytes]
  omega

/-- Each order undoes itself. -/
theorem ByteOrder.arrange_arrange (order : ByteOrder) (words : List UInt16) :
    order.arrange (order.arrange words) = words := by
  have twice : swapBytes ∘ swapBytes = id := funext swapBytes_swapBytes
  cases order with
  | abcd => rfl
  | dcba => simp [arrange, reversesWords, swapsBytes, twice]
  | cdab => simp [arrange, reversesWords, swapsBytes]
  | badc => simp [arrange, reversesWords, swapsBytes, twice]

/-! ## Packing -/

theorem foldl_pack (words : List UInt16) (start : Nat) :
    words.foldl (fun acc w => acc <<< 16 + w.toNat) start =
      start * 2 ^ (16 * words.length) + packNat words := by
  induction words generalizing start with
  | nil => simp [packNat]
  | cons w words ih =>
    rw [packNat, List.foldl_cons, List.foldl_cons, ih, ih (0 <<< 16 + w.toNat), List.length_cons,
      Nat.mul_add, Nat.pow_add, Nat.shiftLeft_eq, Nat.shiftLeft_eq]
    ring

theorem packNat_cons (w : UInt16) (words : List UInt16) :
    packNat (w :: words) = w.toNat * 2 ^ (16 * words.length) + packNat words := by
  rw [packNat, List.foldl_cons, foldl_pack, Nat.zero_shiftLeft, Nat.zero_add]

theorem packNat_lt (words : List UInt16) : packNat words < 2 ^ (16 * words.length) := by
  induction words with
  | nil => exact Nat.one_pos
  | cons w words ih =>
    have digit := w.toNat_lt
    rw [packNat_cons, List.length_cons, Nat.mul_succ, Nat.pow_add, Nat.mul_comm (2 ^ _)]
    calc w.toNat * 2 ^ (16 * words.length) + packNat words
        < (w.toNat + 1) * 2 ^ (16 * words.length) := by
          rw [Nat.add_mul, Nat.one_mul]
          exact Nat.add_lt_add_left ih _
      _ ≤ 2 ^ 16 * 2 ^ (16 * words.length) := Nat.mul_le_mul_right _ digit

/-- The low words of a number do not depend on what is above them. -/
theorem unpackNat_add (high low : Nat) {count digits : Nat} (within : count ≤ digits) :
    unpackNat (high * 2 ^ (16 * digits) + low) count = unpackNat low count := by
  induction count with
  | zero => rfl
  | succ count ih =>
    obtain ⟨more, rfl⟩ := Nat.exists_eq_add_of_le within
    have split : high * 2 ^ (16 * (count + 1 + more)) =
        2 ^ (16 * count) * (2 ^ 16 * (high * 2 ^ (16 * more))) := by
      rw [Nat.mul_add, Nat.mul_succ, Nat.pow_add, Nat.pow_add]
      ring
    have digit : UInt16.ofNat ((high * 2 ^ (16 * (count + 1 + more)) + low) >>> (16 * count)) =
        UInt16.ofNat (low >>> (16 * count)) := by
      refine UInt16.toNat_inj.mp ?_
      rw [UInt16.toNat_ofNat', UInt16.toNat_ofNat', Nat.shiftRight_eq_div_pow,
        Nat.shiftRight_eq_div_pow, split, Nat.mul_add_div (Nat.two_pow_pos _),
        Nat.mul_add_mod]
    rw [unpackNat, unpackNat, digit, ih (by omega)]

theorem packNat_unpackNat (value count : Nat) :
    packNat (unpackNat value count) = value % 2 ^ (16 * count) := by
  induction count with
  | zero => exact (Nat.mod_one value).symm
  | succ count ih =>
    rw [unpackNat, packNat_cons, length_unpackNat, ih, UInt16.toNat_ofNat', Nat.mul_succ,
      Nat.pow_add, Nat.mod_mul, Nat.shiftRight_eq_div_pow, Nat.add_comm, Nat.mul_comm (_ % 2 ^ 16)]

theorem unpackNat_packNat (words : List UInt16) :
    unpackNat (packNat words) words.length = words := by
  induction words with
  | nil => rfl
  | cons w words ih =>
    have digit : (w.toNat * 2 ^ (16 * words.length) + packNat words) >>> (16 * words.length) =
        w.toNat := by
      rw [Nat.shiftRight_eq_div_pow, Nat.mul_comm, Nat.mul_add_div (Nat.two_pow_pos _),
        Nat.div_eq_of_lt (packNat_lt words), Nat.add_zero]
    rw [packNat_cons, List.length_cons, unpackNat, digit, unpackNat_add _ _ (Nat.le_refl _), ih,
      UInt16.ofNat_toNat]

end Fieldbus
