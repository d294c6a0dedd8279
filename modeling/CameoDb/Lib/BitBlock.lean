import Mathlib.Data.BitVec

/-! # Blocks of words by their first bits

The words that agree with a word in its first bits are those between the word with all other bits cleared and the
word with all other bits set. -/

namespace CameoDb.BitBlock

variable {w : Nat}

def checkedShl (x : BitVec w) (n : Nat) : Option (BitVec w) := if n < w then some (x <<< n) else none

/-- A word of `bits` ones and then zeros. -/
def mask (w bits : Nat) : BitVec w := (checkedShl (BitVec.allOnes w) (w - bits)).getD 0

variable {x y : BitVec w} {bits i : Nat}

theorem getLsbD_mask (hi : i < w) : (mask w bits).getLsbD i = decide (w - bits ≤ i) := by
  unfold mask checkedShl
  split
  · rw [Option.getD_some, BitVec.getLsbD_shiftLeft, BitVec.getLsbD_allOnes]
    by_cases hle : w - bits ≤ i
    · simp [hi, hle, show ¬ i < w - bits by omega, show i - (w - bits) < w by omega]
    · simp [hle, show i < w - bits by omega]
  · have : ¬ w - bits ≤ i := by omega
    simp [this]

theorem forall_getMsbD_iff (hbits : bits ≤ w) :
    (∀ i < bits, x.getMsbD i = y.getMsbD i) ↔ ∀ i, w - bits ≤ i → i < w → x.getLsbD i = y.getLsbD i := by
  constructor
  · intro h i hle hlt
    have hmsb := h (w - 1 - i) (by omega)
    rw [BitVec.getMsbD_eq_getLsbD, BitVec.getMsbD_eq_getLsbD] at hmsb
    simpa [show w - 1 - i < w by omega, show w - 1 - (w - 1 - i) = i by omega] using hmsb
  · intro h i hi
    rw [BitVec.getMsbD_eq_getLsbD, BitVec.getMsbD_eq_getLsbD, h (w - 1 - i) (by omega) (by omega)]

theorem and_mask_eq (h : ∀ i, w - bits ≤ i → i < w → x.getLsbD i = y.getLsbD i) :
    x &&& mask w bits = y &&& mask w bits := by
  refine BitVec.eq_of_getLsbD_eq fun i hi => ?_
  rw [BitVec.getLsbD_and, BitVec.getLsbD_and, getLsbD_mask hi]
  by_cases hle : w - bits ≤ i
  · rw [h i hle hi]
  · simp [hle]

theorem or_not_mask (x : BitVec w) (bits : Nat) : (x &&& mask w bits) ||| ~~~ mask w bits = x ||| ~~~ mask w bits := by
  refine BitVec.eq_of_getLsbD_eq fun i hi => ?_
  simp only [BitVec.getLsbD_or, BitVec.getLsbD_and, BitVec.getLsbD_not, getLsbD_mask hi, hi]
  by_cases hle : w - bits ≤ i <;> simp [hle]

theorem getLsbD_eq_of_div_eq {k : Nat} (h : x.toNat / 2 ^ k = y.toNat / 2 ^ k) (hi : k ≤ i) :
    x.getLsbD i = y.getLsbD i := by
  obtain ⟨j, rfl⟩ := Nat.exists_eq_add_of_le hi
  have htest := congrArg (fun n => n.testBit j) h
  simpa only [BitVec.getLsbD, Nat.testBit_div_two_pow, Nat.add_comm] using htest

theorem mem_block_iff (hbits : bits ≤ w) :
    (x &&& mask w bits).toNat ≤ y.toNat ∧ y.toNat ≤ ((x &&& mask w bits) ||| ~~~ mask w bits).toNat ↔
      ∀ i < bits, y.getMsbD i = x.getMsbD i := by
  rw [forall_getMsbD_iff hbits]
  constructor
  · rintro ⟨hlow, hhigh⟩ i hle -
    refine getLsbD_eq_of_div_eq ?_ hle
    -- Both bounds are the word itself but for the bits below.
    have hsame (z : BitVec w) (hz : ∀ i, w - bits ≤ i → i < w → z.getLsbD i = x.getLsbD i) :
        z.toNat / 2 ^ (w - bits) = x.toNat / 2 ^ (w - bits) := by
      refine Nat.eq_of_testBit_eq fun j => ?_
      rw [Nat.testBit_div_two_pow, Nat.testBit_div_two_pow]
      by_cases hj : j + (w - bits) < w
      · exact hz _ (by omega) hj
      · rw [Nat.testBit_lt_two_pow, Nat.testBit_lt_two_pow]
        · exact x.isLt.trans_le (Nat.pow_le_pow_right (by decide) (by omega))
        · exact z.isLt.trans_le (Nat.pow_le_pow_right (by decide) (by omega))
    have hlow' := hsame (x &&& mask w bits) fun i hle hi => by simp [getLsbD_mask hi, hle]
    have hhigh' := hsame ((x &&& mask w bits) ||| ~~~ mask w bits) fun i hle hi => by
      simp only [BitVec.getLsbD_or, BitVec.getLsbD_and, BitVec.getLsbD_not, getLsbD_mask hi, hi, hle]
      simp
    refine Nat.le_antisymm ?_ ?_
    · rw [← hhigh']
      exact Nat.div_le_div_right hhigh
    · rw [← hlow']
      exact Nat.div_le_div_right hlow
  · intro h
    rw [← and_mask_eq h, or_not_mask]
    refine ⟨?_, ?_⟩
    · rw [BitVec.toNat_and]
      exact Nat.and_le_left
    · rw [BitVec.toNat_or]
      exact Nat.left_le_or

end CameoDb.BitBlock
