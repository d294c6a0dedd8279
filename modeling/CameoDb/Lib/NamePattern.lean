import Mathlib.Data.List.Infix

/-! # Patterns of names

A pattern is one name, or every name that starts with some letters. Covering and overlapping are decided on the
patterns alone. -/

namespace CameoDb
open List

inductive NamePattern (α : Type) where
  | exact (name : List α)
  | starting (letters : List α)
deriving DecidableEq

namespace NamePattern
variable {α : Type} [DecidableEq α] {p q : NamePattern α} {name letters : List α} {own inner : List (NamePattern α)}

def text : NamePattern α → List α
  | exact name => name
  | starting letters => letters

def matchesName : NamePattern α → List α → Bool
  | exact name, other => name = other
  | starting letters, other => letters.isPrefixOf other

def covers (p q : NamePattern α) : Bool :=
  match p, q with
  | exact a, exact b => a = b
  | exact _, starting _ => false
  | starting a, exact b => a.isPrefixOf b
  | starting a, starting b => a.isPrefixOf b

def overlaps (p q : NamePattern α) : Bool :=
  match p, q with
  | exact a, exact b => a = b
  | exact name, starting letters => (starting letters).matchesName name
  | starting letters, exact name => (starting letters).matchesName name
  | starting a, starting b => b.isPrefixOf a || a.isPrefixOf b

@[simp] theorem matches_exact : (exact name).matchesName letters = true ↔ name = letters := by
  simp only [matchesName, decide_eq_true_eq]

@[simp] theorem matches_starting : (starting letters).matchesName name = true ↔ letters <+: name := by
  simp only [matchesName, isPrefixOf_iff_prefix]

theorem matches_text (p : NamePattern α) : p.matchesName p.text = true := by
  cases p with
  | exact name => exact matches_exact.mpr rfl
  | starting letters => exact matches_starting.mpr (prefix_refl letters)

theorem text_prefix_of_matches (h : p.matchesName name = true) : p.text <+: name := by
  cases p with
  | exact own =>
    obtain rfl := matches_exact.mp h
    exact prefix_refl own
  | starting own => exact matches_starting.mp h

theorem matches_of_covers (hcovers : p.covers q = true) (h : q.matchesName name = true) :
    p.matchesName name = true := by
  cases p with
  | exact a =>
    cases q with
    | exact b =>
      obtain rfl : a = b := of_decide_eq_true hcovers
      exact h
    | starting b => cases hcovers
  | starting a =>
    have ha : a <+: q.text := by
      cases q <;> exact isPrefixOf_iff_prefix.mp hcovers
    exact matches_starting.mpr (ha.trans (text_prefix_of_matches h))

theorem overlaps_of_matches (hp : p.matchesName name = true) (hq : q.matchesName name = true) :
    p.overlaps q = true := by
  cases p with
  | exact a =>
    obtain rfl := matches_exact.mp hp
    cases q with
    | exact b => exact decide_eq_true (matches_exact.mp hq).symm
    | starting b => exact hq
  | starting a =>
    cases q with
    | exact b =>
      obtain rfl := matches_exact.mp hq
      exact hp
    | starting b =>
      -- Two beginnings of one name: the shorter one begins the longer one.
      rcases prefix_or_prefix_of_prefix (matches_starting.mp hp) (matches_starting.mp hq) with h | h
      · simp only [overlaps, isPrefixOf_iff_prefix.mpr h, Bool.or_true]
      · simp only [overlaps, isPrefixOf_iff_prefix.mpr h, Bool.true_or]

theorem forall_matches_iff : (∀ name, p.matchesName name = true → letters <+: name) ↔ letters <+: p.text := by
  constructor
  · intro h
    exact h p.text (matches_text p)
  · intro h name hname
    exact h.trans (text_prefix_of_matches hname)

/-! ### Lists of patterns -/

def anyMatches (patterns : List (NamePattern α)) (name : List α) : Bool :=
  patterns.any fun p => p.matchesName name

def firstOutside (own inner : List (NamePattern α)) : Option (NamePattern α) :=
  inner.find? fun p => !own.any fun o => o.covers p

def overlapWith (own other : List (NamePattern α)) : Option (NamePattern α × NamePattern α) :=
  own.findSome? fun a => (other.find? fun b => a.overlaps b).map fun b => (a, b)

theorem anyMatches_iff : anyMatches own name = true ↔ ∃ p ∈ own, p.matchesName name = true := by
  simp only [anyMatches, any_eq_true]

theorem anyMatches_of_firstOutside (h : firstOutside own inner = none) (hname : anyMatches inner name = true) :
    anyMatches own name = true := by
  obtain ⟨p, hp, hmatch⟩ := anyMatches_iff.mp hname
  have hcovered := find?_eq_none.mp h p hp
  obtain ⟨o, ho, hcovers⟩ : ∃ o ∈ own, o.covers p = true := by simpa using hcovered
  exact anyMatches_iff.mpr ⟨o, ho, matches_of_covers hcovers hmatch⟩

theorem not_anyMatches_of_overlapWith {other : List (NamePattern α)} (h : overlapWith own other = none)
    (hown : anyMatches own name = true) : ¬ anyMatches other name = true := by
  intro hother
  obtain ⟨a, ha, hmatchA⟩ := anyMatches_iff.mp hown
  obtain ⟨b, hb, hmatchB⟩ := anyMatches_iff.mp hother
  have hnone := findSome?_eq_none_iff.mp h a ha
  have hb' := find?_eq_none.mp (Option.map_eq_none_iff.mp hnone) b hb
  exact hb' (overlaps_of_matches hmatchA hmatchB)

theorem not_anyMatches_nil (h : ∀ p ∈ own, p.text ≠ []) : ¬ anyMatches own [] = true := by
  intro hmatch
  obtain ⟨p, hp, hname⟩ := anyMatches_iff.mp hmatch
  exact h p hp (prefix_nil.mp (text_prefix_of_matches hname))

theorem forall_anyMatches_iff :
    (∀ name, anyMatches own name = true → letters <+: name) ↔ ∀ p ∈ own, letters <+: p.text := by
  constructor
  · intro h p hp
    exact h p.text (anyMatches_iff.mpr ⟨p, hp, matches_text p⟩)
  · intro h name hname
    obtain ⟨p, hp, hmatch⟩ := anyMatches_iff.mp hname
    exact forall_matches_iff.mpr (h p hp) name hmatch

end NamePattern

end CameoDb
