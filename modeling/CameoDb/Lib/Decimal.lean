import Mathlib.Data.Nat.Basic

/-! # Numbers as decimal text

`parse limit` reads what `str::parse` reads for an unsigned integer type with values below `limit`, and
`parseSigned` what it reads for a signed one. -/

namespace CameoDb.Decimal

def digits (limit : Nat) (text : List Char) : Option Nat :=
  if text ≠ [] ∧ text.all Char.isDigit = true ∧ Nat.ofDigitChars 10 text 0 < limit then
    some (Nat.ofDigitChars 10 text 0)
  else none

/-- An optional plus sign before the digits. -/
def parse (limit : Nat) : List Char → Option Nat
  | '+' :: rest => digits limit rest
  | text => digits limit text

def parseSigned (bound : Nat) : List Char → Option Int
  | '-' :: rest => (digits (bound + 1) rest).map fun n => -(n : Int)
  | text => (parse bound text).map fun n => (n : Int)

theorem toList_toString (n : Nat) : (toString n).toList = Nat.toDigits 10 n := by
  show n.repr.toList = _
  simp [Nat.repr]

theorem toDigits_ne_nil (n : Nat) : Nat.toDigits 10 n ≠ [] := by
  intro h
  have := Nat.length_toDigits_pos (b := 10) (n := n)
  rw [h] at this
  simp at this

theorem parse_toString {limit n : Nat} (h : n < limit) : parse limit (toString n).toList = some n := by
  have isDigit : ∀ c ∈ Nat.toDigits 10 n, c.isDigit = true := fun c hc =>
    Nat.isDigit_of_mem_toDigits (by decide) (by decide) hc
  have hdigits : digits limit (Nat.toDigits 10 n) = some n := by
    rw [digits, if_pos ⟨toDigits_ne_nil n, by simpa using isDigit, by simpa using h⟩]
    simp
  rw [toList_toString]
  unfold parse
  split
  · next rest heq =>
    -- A printed number starts with a digit.
    have : ('+' : Char).isDigit = true := isDigit '+' (by rw [heq]; exact List.mem_cons_self ..)
    simp at this
  · exact hdigits

end CameoDb.Decimal
