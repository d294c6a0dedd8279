import Mathlib.Algebra.GroupWithZero.Nat
import Mathlib.Data.List.DropRight

/-! # Text

Operations on strings, character by character. -/

namespace CameoDb
open List

def isWhiteSpace (c : Char) : Bool :=
  (0x9 ≤ c.toNat && c.toNat ≤ 0xD) || (0x2000 ≤ c.toNat && c.toNat ≤ 0x200A) ||
    c.toNat ∈ [0x20, 0x85, 0xA0, 0x1680, 0x2028, 0x2029, 0x202F, 0x205F, 0x3000]

def trimChars (chars : List Char) : List Char := (chars.dropWhile isWhiteSpace).rdropWhile isWhiteSpace

/-- Without white space at its ends. -/
def trim (s : String) : String := String.ofList (trimChars s.toList)

def startsWith (s start : String) : Bool := start.toList.isPrefixOf s.toList

/-- The number of bytes of a text. -/
def byteLength (chars : List Char) : Nat := (chars.map Char.utf8Size).sum

def splitAt (s : String) (c : Char) : List String := (s.toList.splitOn c).map String.ofList

theorem trimChars_eq {chars : List Char} (h : ∀ c ∈ chars, isWhiteSpace c = false) : trimChars chars = chars := by
  have hdrop : chars.dropWhile isWhiteSpace = chars := by
    cases chars with
    | nil => rfl
    | cons c rest => rw [dropWhile_cons_of_neg (by simp [h c mem_cons_self])]
  unfold trimChars
  rw [hdrop, rdropWhile_eq_self_iff]
  intro hne
  simp [h _ (getLast_mem hne)]

theorem trim_eq {s : String} (h : ∀ c ∈ s.toList, isWhiteSpace c = false) : trim s = s := by
  rw [trim, trimChars_eq h, String.ofList_toList]

theorem isWhiteSpace_of_isAlphanum {c : Char} (h : c.isAlphanum = true) : isWhiteSpace c = false := by
  have hrange : (48 ≤ c.toNat ∧ c.toNat ≤ 57) ∨ (65 ≤ c.toNat ∧ c.toNat ≤ 90) ∨ 97 ≤ c.toNat ∧ c.toNat ≤ 122 := by
    delta Char.isAlphanum Char.isAlpha Char.isUpper Char.isLower Char.isDigit at h
    simp only [Bool.or_eq_true, Bool.and_eq_true, decide_eq_true_eq, ge_iff_le, UInt32.le_iff_toNat_le] at h
    have hval : c.toNat = c.val.toNat := rfl
    simp at h
    omega
  simp only [isWhiteSpace, mem_cons, not_mem_nil, or_false, Bool.or_eq_false_iff, Bool.and_eq_false_iff,
    decide_eq_false_iff_not]
  omega

theorem startsWith_iff {s start : String} : startsWith s start = true ↔ start.toList <+: s.toList :=
  isPrefixOf_iff_prefix

end CameoDb
