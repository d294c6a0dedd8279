import Mathlib.Data.List.Forall2

/-! # Computations that succeed or say why not

What is known of the parts of a computation that succeeded. -/

namespace CameoDb
open List

namespace Checked
variable {ε α β : Type} {x : Except ε α}

theorem bind_eq_ok {f : α → Except ε β} {b : β} : (x >>= f) = .ok b ↔ ∃ a, x = .ok a ∧ f a = .ok b := by
  cases x with
  | error e => simp only [bind, Except.bind, reduceCtorEq, false_and, exists_false]
  | ok a => simp only [bind, Except.bind, Except.ok.injEq, exists_eq_left']

theorem map_eq_ok {f : α → β} {b : β} : x.map f = .ok b ↔ ∃ a, x = .ok a ∧ f a = b := by
  cases x <;> simp only [Except.map, reduceCtorEq, false_and, exists_false, Except.ok.injEq, exists_eq_left']

theorem mapError_eq_ok {f : ε → ε} {a : α} : x.mapError f = .ok a ↔ x = .ok a := by
  cases x <;> simp only [Except.mapError, reduceCtorEq]

/-- Whether a result of some kind is returned can be evaluated. -/
instance decidableReturns {P : α → Prop} [DecidablePred P] : ∀ x : Except ε α, Decidable (∃ a, x = .ok a ∧ P a)
  | .error _ => .isFalse fun ⟨_, h, _⟩ => nomatch h
  | .ok a => decidable_of_iff (P a) ⟨fun h => ⟨a, rfl, h⟩, fun ⟨_, h, hP⟩ => Except.ok.inj h ▸ hP⟩

theorem mapM_eq_ok {f : α → Except ε β} {xs : List α} {ys : List β} (h : xs.mapM f = .ok ys) :
    List.Forall₂ (fun x y => f x = .ok y) xs ys := by
  induction xs generalizing ys with
  | nil =>
    cases h
    exact .nil
  | cons x rest ih =>
    rw [mapM_cons] at h
    obtain ⟨y, hy, h⟩ := bind_eq_ok.mp h
    obtain ⟨others, hothers, h⟩ := bind_eq_ok.mp h
    cases h
    exact .cons hy (ih hothers)

theorem exists_left {R : α → β → Prop} {xs : List α} {ys : List β} (h : List.Forall₂ R xs ys) {y : β} (hy : y ∈ ys) :
    ∃ x ∈ xs, R x y := by
  induction h with
  | nil => cases hy
  | cons hxy _ ih =>
    rcases mem_cons.mp hy with rfl | hy
    · exact ⟨_, mem_cons_self, hxy⟩
    · obtain ⟨x, hx, hR⟩ := ih hy
      exact ⟨x, mem_cons_of_mem _ hx, hR⟩

theorem exists_right {R : α → β → Prop} {xs : List α} {ys : List β} (h : List.Forall₂ R xs ys) {x : α} (hx : x ∈ xs) :
    ∃ y ∈ ys, R x y :=
  exists_left (R := fun y x => R x y) h.flip hx

theorem foldlM_invariant {f : β → α → Except ε β} {P : β → Prop}
    (keep : ∀ acc x acc', P acc → f acc x = .ok acc' → P acc') {xs : List α} {acc result : β} (hacc : P acc)
    (h : xs.foldlM f acc = .ok result) : P result := by
  induction xs generalizing acc with
  | nil =>
    cases h
    exact hacc
  | cons x rest ih =>
    rw [foldlM_cons] at h
    obtain ⟨next, hnext, h⟩ := bind_eq_ok.mp h
    exact ih (keep acc x next hacc hnext) h

theorem foldlM_step {f : β → α → Except ε β} {xs : List α} {acc result : β} (h : xs.foldlM f acc = .ok result) {x : α}
    (hx : x ∈ xs) : ∃ before after, f before x = .ok after := by
  induction xs generalizing acc with
  | nil => cases hx
  | cons first rest ih =>
    rw [foldlM_cons] at h
    obtain ⟨next, hnext, h⟩ := bind_eq_ok.mp h
    rcases mem_cons.mp hx with rfl | hx
    · exact ⟨acc, next, hnext⟩
    · exact ih h hx

end Checked

end CameoDb
