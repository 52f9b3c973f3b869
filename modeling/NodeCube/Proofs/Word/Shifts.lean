import Mathlib.Data.Int.ModEq
import NodeCube.Word

/-!
# Shifts as products and quotients

A shift by a count from zero on is the product with a power of two modulo 2^16
(`Word.toInt_shiftLeft`), or the quotient by it, rounded down (`Word.toInt_shiftRight`). Counts
from 16 on are no exception to this, although they are decided without looking at more than the
sign: 2^16 divides the product, and no word is as large as the divisor. So two shifts in a row are
one by the sum of their counts (`Word.shiftLeft_shiftLeft`, `Word.shiftRight_shiftRight`).
-/

namespace NodeCube.Word

theorem toInt_bounds (a : Word) : -32768 ≤ a.toInt ∧ a.toInt ≤ 32767 := by
  have hlow := Int16.le_toInt a
  have hhigh := Int16.toInt_lt a
  omega

theorem toInt_wrap (v : Int) : (wrap v).toInt = v.bmod 65536 := Int16.toInt_ofInt

theorem toInt_wrap_of_bounds {v : Int} (h : -32768 ≤ v ∧ v ≤ 32767) : (wrap v).toInt = v :=
  Int16.toInt_ofInt_of_le h.1 (Int.lt_add_one_iff.mpr h.2)

/-- A quotient is a word if the dividend is one. -/
theorem ediv_bounds (a : Word) {d : Int} (hd : 0 < d) :
    -32768 ≤ a.toInt / d ∧ a.toInt / d ≤ 32767 := by
  obtain ⟨hlow, hhigh⟩ := a.toInt_bounds
  constructor
  · apply Int.le_ediv_of_mul_le hd
    have hmul : -32768 * d ≤ -32768 * 1 := Int.mul_le_mul_of_nonpos_left (by decide) hd
    omega
  · apply Int.ediv_le_of_le_mul hd
    have hmul : 32767 * 1 ≤ 32767 * d := Int.mul_le_mul_of_nonneg_left hd (by decide)
    omega

theorem two_pow_le {k : Nat} (h : 16 ≤ k) : (65536 : Int) ≤ 2 ^ k := by
  have hpow : 2 ^ 16 ≤ 2 ^ k := Nat.pow_le_pow_right (by decide) h
  exact_mod_cast hpow

theorem toInt_shiftLeft (a : Word) {k : Word} (hk : 0 ≤ k.toInt) :
    (a.shiftLeft k).toInt = (a.toInt * 2 ^ k.toInt.toNat).bmod 65536 := by
  unfold shiftLeft
  split
  · rename_i hout
    have hdvd : (2 : Int) ^ 16 ∣ 2 ^ k.toInt.toNat := pow_dvd_pow 2 (by omega)
    exact (Int.bmod_eq_zero_of_dvd (hdvd.mul_left a.toInt)).symm
  · exact toInt_wrap _

theorem toInt_shiftRight (a : Word) {k : Word} (hk : 0 ≤ k.toInt) :
    (a.shiftRight k).toInt = a.toInt / 2 ^ k.toInt.toNat := by
  obtain ⟨hlow, hhigh⟩ := a.toInt_bounds
  unfold shiftRight
  split
  · rename_i hout
    have hpow := two_pow_le (k := k.toInt.toNat) (by omega)
    split
    · rename_i hneg
      exact (Int.ediv_eq_neg_one_of_neg_of_le hneg (by omega)).symm
    · exact (Int.ediv_eq_zero_of_lt (by omega) (by omega)).symm
  · exact toInt_wrap_of_bounds (a.ediv_bounds (Int.pow_pos (by decide)))

theorem shiftLeft_of_neg (a : Word) {k : Word} (hk : k.toInt < 0) : a.shiftLeft k = 0 :=
  if_pos (.inl hk)

theorem shiftRight_of_neg (a : Word) {k : Word} (hk : k.toInt < 0) :
    a.shiftRight k = if a.toInt < 0 then -1 else 0 := if_pos (.inl hk)

theorem toInt_add {a b : Word} (ha : 0 ≤ a.toInt) (hb : 0 ≤ b.toInt)
    (hab : a.toInt + b.toInt ≤ 32767) : (a.add b).toInt = a.toInt + b.toInt :=
  toInt_wrap_of_bounds ⟨by omega, hab⟩

section Sums

variable {j k : Word} (hj : 0 ≤ j.toInt) (hk : 0 ≤ k.toInt) (hjk : j.toInt + k.toInt ≤ 32767)
include hj hk hjk

theorem toInt_add_nonneg : 0 ≤ (j.add k).toInt := by
  rw [toInt_add hj hk hjk]
  omega

theorem pow_toInt_add :
    (2 : Int) ^ (j.add k).toInt.toNat = 2 ^ j.toInt.toNat * 2 ^ k.toInt.toNat := by
  rw [toInt_add hj hk hjk, Int.toNat_add hj hk, pow_add]

theorem shiftLeft_shiftLeft (a : Word) :
    (a.shiftLeft j).shiftLeft k = a.shiftLeft (j.add k) := by
  have hsum := toInt_add_nonneg hj hk hjk
  rw [← Int16.toInt_inj, toInt_shiftLeft _ hk, toInt_shiftLeft _ hj, toInt_shiftLeft _ hsum,
    Int.bmod_mul_bmod, pow_toInt_add hj hk hjk, mul_assoc]

theorem shiftRight_shiftRight (a : Word) :
    (a.shiftRight j).shiftRight k = a.shiftRight (j.add k) := by
  have hsum := toInt_add_nonneg hj hk hjk
  rw [← Int16.toInt_inj, toInt_shiftRight _ hk, toInt_shiftRight _ hj, toInt_shiftRight _ hsum,
    Int.ediv_ediv_of_nonneg (Int.le_of_lt (Int.pow_pos (by decide))), pow_toInt_add hj hk hjk]

end Sums

end NodeCube.Word
