import CameoDb.Lib.Reader
import CameoDb.Lib.Slice

/-! # The bytes of a text

A character of one byte is that byte. The bytes of a longer one are told apart from those and not from each other:
no byte of them is ever looked for. -/

namespace CameoDb
open List

def longByte : Char := Char.ofNat 0x80

def charBytes (c : Char) : List Char := if c.utf8Size = 1 then [c] else replicate c.utf8Size longByte

def bytesOf (chars : List Char) : List Char := chars.flatMap charBytes

variable {chars front back mid rest : List Char} {c : Char} {i : Nat}

@[simp] theorem bytesOf_nil : bytesOf [] = [] := rfl

@[simp] theorem bytesOf_cons : bytesOf (c :: chars) = charBytes c ++ bytesOf chars := rfl

@[simp] theorem bytesOf_append : bytesOf (front ++ back) = bytesOf front ++ bytesOf back := flatMap_append

theorem length_charBytes (c : Char) : (charBytes c).length = c.utf8Size := by
  unfold charBytes
  split_ifs with h
  · exact h.symm
  · exact length_replicate

@[simp] theorem length_bytesOf (chars : List Char) : (bytesOf chars).length = byteLength chars := by
  induction chars with
  | nil => rfl
  | cons c chars ih => rw [bytesOf_cons, length_append, length_charBytes, ih, byteLength_cons]

theorem utf8Size_longByte : longByte.utf8Size = 2 := by decide

theorem exists_of_getElem?_bytesOf (h : (bytesOf chars)[i]? = some c) (hc : c ≠ longByte) :
    ∃ front back, chars = front ++ c :: back ∧ byteLength front = i ∧ c.utf8Size = 1 := by
  induction chars generalizing i with
  | nil => cases h
  | cons d chars ih =>
    rw [bytesOf_cons, getElem?_append, length_charBytes] at h
    split at h
    case isTrue hlt =>
      unfold charBytes at h
      split_ifs at h with hone
      · obtain ⟨rfl, rfl⟩ : i = 0 ∧ d = c := by
          obtain rfl : i = 0 := by omega
          exact ⟨rfl, Option.some_inj.mp h⟩
        exact ⟨[], chars, rfl, rfl, hone⟩
      · exact absurd (eq_of_mem_replicate (mem_of_getElem? h)) hc
    case isFalse hge =>
      obtain ⟨front, back, rfl, hfront, hone⟩ := ih h
      exact ⟨d :: front, back, rfl, by rw [byteLength_cons]; omega, hone⟩

theorem exists_of_drop_bytesOf (h : (bytesOf chars).drop i = mid ++ rest)
    (hmid : ∀ c ∈ mid, c ≠ longByte) (hne : mid ≠ []) :
    ∃ front back, chars = front ++ (mid ++ back) ∧ byteLength front = i ∧ bytesOf back = rest ∧
    byteLength mid = mid.length := by
  induction mid generalizing i with
  | nil => exact absurd rfl hne
  | cons c mid ih =>
    have hget : (bytesOf chars)[i]? = some c := by rw [← head?_drop, h]; rfl
    obtain ⟨front, back, rfl, hfront, hone⟩ := exists_of_getElem?_bytesOf hget (hmid c mem_cons_self)
    have hdrop : bytesOf back = mid ++ rest := by
      have hlength : (bytesOf front).length = i := by rw [length_bytesOf, hfront]
      rw [bytesOf_append, ← hlength, drop_left, bytesOf_cons, charBytes, if_pos hone] at h
      exact (cons_eq_cons.mp h).2
    cases mid with
    | nil => exact ⟨front, back, rfl, hfront, hdrop, by simp [hone]⟩
    | cons d mid =>
      have hnext : (bytesOf (front ++ c :: back)).drop (i + 1) = d :: mid ++ rest := by
        rw [← drop_drop, h]
        rfl
      obtain ⟨front', back', htext, hfront', hback', hlength⟩ :=
        ih hnext (fun e he => hmid e (mem_cons_of_mem _ he)) (by simp)
      have hsame : front ++ [c] ++ back = front' ++ (d :: mid ++ back') := by rw [← htext]; simp
      obtain ⟨rfl, rfl⟩ := eq_of_byteLength_eq hsame (by simp [hfront, hfront', hone])
      exact ⟨front, back', by simp, hfront, hback', by rw [byteLength_cons, hone, hlength]; simp; omega⟩

theorem not_mem_marks_of_long (h : c.utf8Size ≠ 1) : c ∉ Reader.marks := by
  intro hc
  simp only [Reader.marks, mem_cons, not_mem_nil, or_false] at hc
  rcases hc with rfl | rfl | rfl | rfl | rfl | rfl <;> exact h (by decide)

theorem past_charBytes (r : Reader) (c : Char) : r.past (charBytes c) = r.next c := by
  unfold charBytes
  split_ifs with hone
  · rfl
  · rw [Reader.next_of_not_mem (not_mem_marks_of_long hone), Reader.past_of_not_mem]
    · intro d hd
      rw [eq_of_mem_replicate hd]
      exact not_mem_marks_of_long (by rw [utf8Size_longByte]; decide)
    · intro hnil
      rw [replicate_eq_nil_iff] at hnil
      exact absurd hnil (by have := c.utf8Size_pos; omega)

theorem past_bytesOf (r : Reader) (chars : List Char) : r.past (bytesOf chars) = r.past chars := by
  induction chars generalizing r with
  | nil => rfl
  | cons c chars ih => rw [bytesOf_cons, Reader.past_append, past_charBytes, ih, Reader.past_cons]

end CameoDb
