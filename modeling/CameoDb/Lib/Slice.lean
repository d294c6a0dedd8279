import CameoDb.Lib.Text

/-! # Slices of a text by bytes

A slice is cut at byte offsets. An offset past the end or inside a character is no place to cut: there a slice has
no value. -/

namespace CameoDb
open List

def splitBytes : List Char → Nat → Option (List Char × List Char)
  | chars, 0 => some ([], chars)
  | [], _ + 1 => none
  | c :: rest, n + 1 =>
    if c.utf8Size ≤ n + 1 then (splitBytes rest (n + 1 - c.utf8Size)).map fun parts => (c :: parts.1, parts.2)
    else none

def slice (chars : List Char) (start stop : Nat) : Option (List Char) :=
  (splitBytes chars stop).bind fun parts => (splitBytes parts.1 start).map (·.2)

/-- The byte at which a text first stands in another. -/
def findText (needle : List Char) : List Char → Option Nat
  | [] => if needle = [] then some 0 else none
  | c :: rest => if needle.isPrefixOf (c :: rest) then some 0 else (findText needle rest).map (c.utf8Size + ·)

/-- A character starts, or the text ends, at byte `n`. -/
def IsBoundary (chars : List Char) (n : Nat) : Prop := ∃ front back, chars = front ++ back ∧ byteLength front = n

variable {chars front back mid : List Char} {n start stop : Nat}

@[simp] theorem byteLength_nil : byteLength [] = 0 := rfl

@[simp] theorem byteLength_cons (c : Char) : byteLength (c :: chars) = c.utf8Size + byteLength chars := by
  simp [byteLength]

@[simp] theorem byteLength_append : byteLength (front ++ back) = byteLength front + byteLength back := by
  simp [byteLength]

theorem byteLength_eq_zero : byteLength chars = 0 ↔ chars = [] := by
  cases chars with
  | nil => simp
  | cons c rest =>
    have := c.utf8Size_pos
    simp only [byteLength_cons, reduceCtorEq, iff_false]
    omega

theorem append_eq_append_of_byteLength_le {front' back' : List Char} (h : front ++ back = front' ++ back')
    (hle : byteLength front ≤ byteLength front') : ∃ mid, front' = front ++ mid ∧ back = mid ++ back' := by
  rcases append_eq_append_iff.mp h with ⟨mid, rfl, rfl⟩ | ⟨mid, rfl, rfl⟩
  · exact ⟨mid, rfl, rfl⟩
  · rw [byteLength_append] at hle
    obtain rfl : mid = [] := byteLength_eq_zero.mp (by omega)
    exact ⟨[], by simp, by simp⟩

theorem eq_of_byteLength_eq {front' back' : List Char} (h : front ++ back = front' ++ back')
    (hlength : byteLength front = byteLength front') : front = front' ∧ back = back' := by
  obtain ⟨mid, rfl, rfl⟩ := append_eq_append_of_byteLength_le h hlength.le
  obtain rfl : mid = [] := byteLength_eq_zero.mp (by rw [byteLength_append] at hlength; omega)
  exact ⟨by simp, rfl⟩

theorem splitBytes_eq_some_iff : splitBytes chars n = some (front, back) ↔ chars = front ++ back ∧
    byteLength front = n := by
  induction chars, n using splitBytes.induct generalizing front with
  | case1 chars =>
    rw [splitBytes, Option.some_inj, Prod.mk.injEq, byteLength_eq_zero]
    constructor
    · rintro ⟨rfl, rfl⟩
      exact ⟨rfl, rfl⟩
    · rintro ⟨rfl, rfl⟩
      exact ⟨rfl, rfl⟩
  | case2 n =>
    rw [splitBytes]
    refine iff_of_false nofun fun ⟨hnil, hlength⟩ => ?_
    rw [(append_eq_nil_iff.mp hnil.symm).1, byteLength_nil] at hlength
    cases hlength
  | case3 c rest n hfits ih =>
    rw [splitBytes, if_pos hfits, Option.map_eq_some_iff]
    constructor
    · rintro ⟨⟨front', back'⟩, hsplit, hcons⟩
      simp only [Prod.mk.injEq] at hcons
      obtain ⟨rfl, rfl⟩ := hcons
      obtain ⟨hrest, hlength⟩ := ih.mp hsplit
      exact ⟨by rw [hrest, cons_append], by rw [byteLength_cons]; omega⟩
    · rintro ⟨hchars, hlength⟩
      cases front with
      | nil =>
        rw [byteLength_nil] at hlength
        omega
      | cons c' front =>
        obtain ⟨rfl, rfl⟩ := cons_eq_cons.mp hchars
        rw [byteLength_cons] at hlength
        exact ⟨(front, back), ih.mpr ⟨rfl, by omega⟩, rfl⟩
  | case4 c rest n hfits =>
    rw [splitBytes, if_neg hfits]
    refine iff_of_false nofun fun ⟨hchars, hlength⟩ => ?_
    cases front with
    | nil =>
      rw [byteLength_nil] at hlength
      omega
    | cons c' front =>
      obtain ⟨rfl, rfl⟩ := cons_eq_cons.mp hchars
      rw [byteLength_cons] at hlength
      omega

theorem slice_eq_some_iff : slice chars start stop = some mid ↔
    ∃ front back, chars = front ++ mid ++ back ∧ byteLength front = start ∧ start + byteLength mid = stop := by
  unfold slice
  simp only [Option.bind_eq_some_iff, Option.map_eq_some_iff, Prod.exists, splitBytes_eq_some_iff]
  constructor
  · rintro ⟨upto, back, ⟨rfl, hstop⟩, front, mid', ⟨rfl, hstart⟩, rfl⟩
    rw [byteLength_append] at hstop
    exact ⟨front, back, rfl, hstart, by omega⟩
  · rintro ⟨front, back, rfl, hstart, hstop⟩
    exact ⟨front ++ mid, back, ⟨rfl, by rw [byteLength_append]; omega⟩, front, mid, ⟨rfl, hstart⟩, rfl⟩

theorem slice_isSome_iff : (slice chars start stop).isSome ↔ start ≤ stop ∧ IsBoundary chars start ∧
    IsBoundary chars stop := by
  rw [Option.isSome_iff_exists]
  constructor
  · rintro ⟨mid, h⟩
    obtain ⟨front, back, rfl, hstart, hstop⟩ := slice_eq_some_iff.mp h
    exact ⟨by omega, ⟨front, mid ++ back, by simp, hstart⟩, front ++ mid, back, rfl, by rw [byteLength_append]; omega⟩
  · rintro ⟨hle, ⟨front, back, rfl, hstart⟩, front', back', happend, hstop⟩
    obtain ⟨mid, rfl, rfl⟩ := append_eq_append_of_byteLength_le happend (by omega)
    rw [byteLength_append] at hstop
    exact ⟨mid, slice_eq_some_iff.mpr ⟨front, back', happend, hstart, by omega⟩⟩

theorem isBoundary_of_ascii (h : ∀ c ∈ chars, c.utf8Size = 1) (hle : n ≤ byteLength chars) : IsBoundary chars n := by
  induction chars generalizing n with
  | nil => exact ⟨[], [], rfl, (Nat.le_zero.mp hle).symm⟩
  | cons c rest ih =>
    cases n with
    | zero => exact ⟨[], c :: rest, rfl, rfl⟩
    | succ n =>
      have hone := h c mem_cons_self
      rw [byteLength_cons] at hle
      obtain ⟨front, back, rfl, hlength⟩ := @ih n (fun c hc => h c (mem_cons_of_mem _ hc)) (by omega)
      exact ⟨c :: front, back, rfl, by rw [byteLength_cons]; omega⟩

theorem slice_isSome_of_ascii (h : ∀ c ∈ chars, c.utf8Size = 1) (hle : start ≤ stop) (hstop : stop ≤ byteLength chars) :
    (slice chars start stop).isSome :=
  slice_isSome_iff.mpr ⟨hle, isBoundary_of_ascii h (by omega), isBoundary_of_ascii h hstop⟩

end CameoDb
