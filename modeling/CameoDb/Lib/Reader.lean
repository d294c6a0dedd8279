import Mathlib.Data.List.Basic

/-! # Reading a text left to right

A quote opens a phrase and the next closes it, brackets outside phrases nest, and a backslash takes the meaning off
the character after it. -/

namespace CameoDb
open List

structure Reader where
  escaped : Bool := false
  phrase : Bool := false
  depth : Nat := 0
  deriving DecidableEq

namespace Reader

def next (r : Reader) (c : Char) : Reader :=
  if r.escaped then { r with escaped := false }
  else if c = '\\' then { r with escaped := true }
  else if c = '"' then { r with phrase := !r.phrase }
  else if r.phrase then r
  else if c = '[' ∨ c = '{' then { r with depth := r.depth + 1 }
  else if c = ']' ∨ c = '}' then { r with depth := r.depth - 1 }
  else r

def past (r : Reader) (chars : List Char) : Reader := chars.foldl next r

variable {r : Reader} {chars front back : List Char} {c : Char}

@[simp] theorem past_nil : r.past [] = r := rfl

@[simp] theorem past_cons : r.past (c :: chars) = (r.next c).past chars := rfl

@[simp] theorem past_append : r.past (front ++ back) = (r.past front).past back := foldl_append

theorem next_escaped : (r.next c).escaped = (!r.escaped && c = '\\') := by
  unfold next
  split_ifs <;> simp_all

/-- The characters that mean something to a reader. -/
def marks : List Char := ['\\', '"', '[', '{', ']', '}']

theorem next_of_not_mem (h : c ∉ marks) : r.next c = { r with escaped := false } := by
  simp only [marks, mem_cons, not_mem_nil, or_false, not_or] at h
  obtain ⟨hslash, hquote, hopen, hbrace, hclose, hbraceClose⟩ := h
  simp only [next, hslash, hquote, hopen, hbrace, hclose, hbraceClose, or_self, if_false, ite_self]
  split_ifs with hescaped
  · rfl
  · obtain ⟨escaped, phrase, depth⟩ := r
    obtain rfl : escaped = false := by simpa using hescaped
    rfl

theorem past_of_not_mem (h : ∀ c ∈ chars, c ∉ marks) (hr : chars = [] → r.escaped = false) :
    r.past chars = { r with escaped := false } := by
  induction chars generalizing r with
  | nil =>
    rw [past_nil, ← hr rfl]
  | cons c chars ih =>
    rw [past_cons, next_of_not_mem (h c mem_cons_self), ih (fun d hd => h d (mem_cons_of_mem _ hd)) fun _ => rfl]

theorem eq_start (hphrase : r.phrase = false) (hdepth : r.depth = 0) (hescaped : r.escaped = false) : r = {} := by
  obtain ⟨escaped, phrase, depth⟩ := r
  obtain rfl : phrase = false := hphrase
  obtain rfl : depth = 0 := hdepth
  obtain rfl : escaped = false := hescaped
  rfl

end Reader

end CameoDb
