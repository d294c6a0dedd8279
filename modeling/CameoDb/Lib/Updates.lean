import Mathlib.Data.List.Perm.Basic

/-! # Updates that commute

Where lessons commute and one taken twice teaches nothing more, what a list teaches is a matter of which lessons are
in it. -/

namespace CameoDb.Updates
open List
variable {σ α : Type}

/-- Updates that commute, each of which is done once it has been done. -/
structure Absorbing (f : σ → α → σ) : Prop where
  comm : ∀ s a b, f (f s a) b = f (f s b) a
  idem : ∀ s a, f (f s a) a = f s a

namespace Absorbing
variable {f : σ → α → σ} {l l' : List α} {s : σ} {a : α}

theorem foldl_perm (h : Absorbing f) (hperm : l.Perm l') (s : σ) : l.foldl f s = l'.foldl f s :=
  hperm.foldl_eq' (fun a _ b _ s => h.comm s a b) s

theorem foldl_update (h : Absorbing f) (l : List α) (s : σ) (a : α) : l.foldl f (f s a) = f (l.foldl f s) a := by
  induction l generalizing s with
  | nil => rfl
  | cons b rest ih =>
    rw [foldl_cons, foldl_cons, h.comm]
    exact ih (f s b)

theorem update_foldl (h : Absorbing f) (ha : a ∈ l) (s : σ) : f (l.foldl f s) a = l.foldl f s := by
  obtain ⟨before, after, rfl⟩ := append_of_mem ha
  rw [foldl_append, foldl_cons, ← h.foldl_update after, h.idem]

theorem foldl_eq_self_iff (h : Absorbing f) : l.foldl f s = s ↔ ∀ a ∈ l, f s a = s := by
  constructor
  · intro hs a ha
    have := h.update_foldl ha s
    rwa [hs] at this
  · intro hs
    induction l with
    | nil => rfl
    | cons a rest ih =>
      rw [foldl_cons, hs a (mem_cons_self ..)]
      exact ih fun b hb => hs b (mem_cons_of_mem _ hb)

end Absorbing

end CameoDb.Updates
