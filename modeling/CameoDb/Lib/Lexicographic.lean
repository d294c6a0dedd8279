import Mathlib.Data.List.Lex
import Mathlib.Order.Lattice

/-! # Ranges in the lexicographic order

What lies between two lists that differ only in their last element. -/

namespace CameoDb

variable {α : Type} [LinearOrder α]

/-- Between a list and the same list with its last element raised lie those that begin with it and one of the
    elements between. -/
theorem between_last_iff {head items : List α} {low high : α} :
    head ++ [low] ≤ items ∧ items < head ++ [high] ↔ ∃ x, low ≤ x ∧ x < high ∧ head ++ [x] <+: items := by
  rw [← not_lt]
  induction head generalizing items with
  | nil =>
    cases items with
    | nil => simp
    | cons x rest => simp [List.cons_lt_cons_iff]
  | cons y head ih =>
    cases items with
    | nil => simp
    | cons x rest =>
      simp only [List.cons_append, List.cons_lt_cons_iff, List.cons_prefix_cons, not_or, not_and]
      constructor
      · rintro ⟨⟨hge, hlow⟩, hhigh | ⟨rfl, hhigh⟩⟩
        · exact absurd hhigh hge
        · obtain ⟨z, hz⟩ := ih.mp ⟨hlow rfl, hhigh⟩
          exact ⟨z, hz.1, hz.2.1, rfl, hz.2.2⟩
      · rintro ⟨z, hlow, hhigh, rfl, hstarts⟩
        obtain ⟨hge, hlt⟩ := ih.mpr ⟨z, hlow, hhigh, hstarts⟩
        exact ⟨⟨lt_irrefl _, fun _ => hge⟩, .inr ⟨rfl, hlt⟩⟩

end CameoDb
