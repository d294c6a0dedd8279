import Mathlib.Algebra.Group.Nat.Defs
import Mathlib.Data.Nat.Log

/-! # Rounding to significant bits

Natural numbers rounded to the nearest one of `p` significant bits, a tie to the even one. -/

namespace CameoDb.Rounding

/-- `n / 2 ^ k`, rounded to the nearest natural number, a tie to the even one. -/
def roundQuotient (k n : Nat) : Nat :=
  if 2 * (n % 2 ^ k) < 2 ^ k ∨ 2 * (n % 2 ^ k) = 2 ^ k ∧ n / 2 ^ k % 2 = 0 then n / 2 ^ k else n / 2 ^ k + 1

/-- How many low bits of `n` do not fit into `p`. -/
def excessBits (p n : Nat) : Nat := n.log2 + 1 - p

def nearestEven (p n : Nat) : Nat := roundQuotient (excessBits p n) n * 2 ^ excessBits p n

theorem div_le_roundQuotient (k n : Nat) : n / 2 ^ k ≤ roundQuotient k n := by
  unfold roundQuotient
  split
  · exact Nat.le_refl _
  · exact Nat.le_succ _

theorem roundQuotient_le (k n : Nat) : roundQuotient k n ≤ n / 2 ^ k + 1 := by
  unfold roundQuotient
  split
  · exact Nat.le_succ _
  · exact Nat.le_refl _

theorem roundQuotient_mono {k m n : Nat} (h : m ≤ n) : roundQuotient k m ≤ roundQuotient k n := by
  have hle : m / 2 ^ k ≤ n / 2 ^ k := Nat.div_le_div_right h
  rcases Nat.lt_or_eq_of_le hle with hlt | heq
  · calc roundQuotient k m ≤ m / 2 ^ k + 1 := roundQuotient_le k m
      _ ≤ n / 2 ^ k := hlt
      _ ≤ roundQuotient k n := div_le_roundQuotient k n
  · -- With one quotient the remainders decide, and they are ordered as the numbers are.
    have hmod : m % 2 ^ k ≤ n % 2 ^ k := by
      have hm := Nat.div_add_mod m (2 ^ k)
      have hn := Nat.div_add_mod n (2 ^ k)
      rw [heq] at hm
      omega
    unfold roundQuotient
    rw [heq]
    split
    · split
      · exact Nat.le_refl _
      · exact Nat.le_succ _
    · split
      · omega
      · exact Nat.le_refl _

theorem nearestEven_of_lt {p n : Nat} (h : n < 2 ^ p) (hp : 0 < p) : nearestEven p n = n := by
  have hexcess : excessBits p n = 0 := by
    unfold excessBits
    by_cases hn : n = 0
    · subst hn
      simp
      omega
    · have := (Nat.log2_lt hn).mpr h
      omega
  rw [nearestEven, hexcess]
  simp [roundQuotient, Nat.mod_one]

theorem nearestEven_le (p n : Nat) : nearestEven p n ≤ 2 ^ (n.log2 + 1) := by
  have hexcess : excessBits p n ≤ n.log2 + 1 := Nat.sub_le _ _
  have hsplit : 2 ^ (n.log2 + 1) = 2 ^ (n.log2 + 1 - excessBits p n) * 2 ^ excessBits p n := by
    rw [← Nat.pow_add, Nat.sub_add_cancel hexcess]
  have hlt : n < 2 ^ (n.log2 + 1) := Nat.lt_log2_self
  rw [hsplit] at hlt ⊢
  exact Nat.mul_le_mul_right _ ((roundQuotient_le _ n).trans (Nat.div_lt_of_lt_mul (by rwa [Nat.mul_comm])))

theorem le_nearestEven {p n : Nat} (hp : 0 < p) (hn : n ≠ 0) : 2 ^ n.log2 ≤ nearestEven p n := by
  have hexcess : excessBits p n ≤ n.log2 := by
    unfold excessBits
    omega
  have hsplit : 2 ^ n.log2 = 2 ^ (n.log2 - excessBits p n) * 2 ^ excessBits p n := by
    rw [← Nat.pow_add, Nat.sub_add_cancel hexcess]
  have hle : 2 ^ n.log2 ≤ n := Nat.log2_self_le hn
  rw [hsplit] at hle ⊢
  refine Nat.mul_le_mul_right _ (Nat.le_trans ?_ (div_le_roundQuotient _ n))
  exact (Nat.le_div_iff_mul_le (Nat.two_pow_pos _)).mpr hle

theorem nearestEven_mono {p m n : Nat} (hp : 0 < p) (h : m ≤ n) : nearestEven p m ≤ nearestEven p n := by
  by_cases hm : m = 0
  · subst hm
    rw [nearestEven_of_lt (Nat.two_pow_pos p) hp]
    exact Nat.zero_le _
  · have hlog : m.log2 ≤ n.log2 := by
      rw [Nat.log2_eq_log_two, Nat.log2_eq_log_two]
      exact Nat.log_mono_right h
    rcases Nat.lt_or_eq_of_le hlog with hlt | heq
    · calc nearestEven p m ≤ 2 ^ (m.log2 + 1) := nearestEven_le p m
        _ ≤ 2 ^ n.log2 := Nat.pow_le_pow_right (by decide) hlt
        _ ≤ nearestEven p n := le_nearestEven hp (by omega)
    · have hexcess : excessBits p m = excessBits p n := by rw [excessBits, excessBits, heq]
      rw [nearestEven, nearestEven, hexcess]
      exact Nat.mul_le_mul_right _ (roundQuotient_mono h)

end CameoDb.Rounding
