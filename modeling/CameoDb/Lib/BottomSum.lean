import Mathlib.Algebra.GroupWithZero.Nat
import Mathlib.Algebra.Order.BigOperators.Group.List

/-! # Sums from the bottom of a stack

A stack is a list with its top first. Pushing and popping leave what is below alone. -/

namespace CameoDb

def bottomSum (stack : List Nat) (count : Nat) : Nat := (stack.drop (stack.length - count)).sum

variable {stack : List Nat} {i j top : Nat}

theorem sum_drop_le (stack : List Nat) (i : Nat) : (stack.drop i).sum ≤ stack.sum := by
  conv_rhs => rw [← List.take_append_drop i stack, List.sum_append]
  exact Nat.le_add_left _ _

theorem bottomSum_mono (h : i ≤ j) : bottomSum stack i ≤ bottomSum stack j := by
  have hsplit : stack.length - i = (stack.length - j) + (stack.length - i - (stack.length - j)) := by omega
  rw [bottomSum, hsplit, ← List.drop_drop]
  exact sum_drop_le _ _

theorem bottomSum_all (h : stack.length ≤ i) : bottomSum stack i = stack.sum := by
  rw [bottomSum, Nat.sub_eq_zero_of_le h, List.drop_zero]

theorem bottomSum_push (h : i ≤ stack.length) : bottomSum (top :: stack) i = bottomSum stack i := by
  rw [bottomSum, List.length_cons, Nat.succ_sub h, List.drop_succ_cons, bottomSum]

theorem bottomSum_tail (h : i ≤ stack.tail.length) : bottomSum stack.tail i = bottomSum stack i := by
  cases stack with
  | nil => rfl
  | cons top stack => exact (bottomSum_push h).symm

theorem bottomSum_tail_le : bottomSum stack.tail i ≤ bottomSum stack i := by
  cases stack with
  | nil => exact Nat.le_refl _
  | cons top stack =>
    by_cases h : i ≤ stack.length
    · rw [bottomSum_push h]
      exact Nat.le_refl _
    · rw [bottomSum_all (by simp; omega), bottomSum_all (by simp; omega)]
      simp

end CameoDb
