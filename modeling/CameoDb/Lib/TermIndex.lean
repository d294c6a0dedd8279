import Mathlib.Data.List.Basic

/-! # A search index with buffered edits

A writer buffers edits and a commit installs them at once. Deleting a term removes the documents under that key
that were there before the edit, those buffered earlier included. -/

namespace CameoDb
open List

/-- One buffered edit of documents `δ` under keys `κ`. -/
inductive Edit (κ δ : Type) where
  | deleteTerm (k : κ)
  | add (d : δ)
  deriving DecidableEq, Repr

namespace Edit
variable {κ δ : Type} [DecidableEq κ] (key : δ → κ)

def apply (docs : List δ) : Edit κ δ → List δ
  | deleteTerm k => docs.filter fun d => key d ≠ k
  | add d => docs ++ [d]

def applyAll (docs : List δ) (edits : List (Edit κ δ)) : List δ := edits.foldl (apply key) docs

def under (docs : List δ) (k : κ) : List δ := docs.filter fun d => key d = k

def target : Edit κ δ → κ
  | deleteTerm k => k
  | add d => key d

@[simp] theorem applyAll_nil (docs : List δ) : applyAll key docs [] = docs := rfl

@[simp] theorem applyAll_append (docs : List δ) (xs ys : List (Edit κ δ)) :
    applyAll key docs (xs ++ ys) = applyAll key (applyAll key docs xs) ys := by
  simp [applyAll]

theorem applyAll_cons (docs : List δ) (x : Edit κ δ) (xs : List (Edit κ δ)) :
    applyAll key docs (x :: xs) = applyAll key (apply key docs x) xs := rfl

variable {key}

@[simp] theorem under_deleteTerm_self (docs : List δ) (k : κ) : under key (apply key docs (deleteTerm k)) k = [] := by
  simp [under, apply, filter_filter]

theorem under_apply_of_ne (docs : List δ) {e : Edit κ δ} {k : κ} (h : target key e ≠ k) :
    under key (apply key docs e) k = under key docs k := by
  cases e with
  | deleteTerm k' =>
    simp only [under, apply, filter_filter]
    apply filter_congr
    intro d _
    have hne : k' ≠ k := h
    by_cases hd : key d = k
    · simp [hd, hne.symm]
    · simp [hd]
  | add d =>
    have hne : key d ≠ k := h
    simp [under, apply, filter_append, hne]

theorem under_add_self (docs : List δ) {d : δ} {k : κ} (h : key d = k) :
    under key (apply key docs (add d)) k = under key docs k ++ [d] := by
  simp [under, apply, filter_append, h]

theorem under_applyAll_of_ne {edits : List (Edit κ δ)} {k : κ} (h : ∀ e ∈ edits, target key e ≠ k) (docs : List δ) :
    under key (applyAll key docs edits) k = under key docs k := by
  induction edits generalizing docs with
  | nil => rfl
  | cons e rest ih =>
    rw [applyAll_cons, ih (fun e he => h e (mem_cons_of_mem _ he)),
      under_apply_of_ne docs (h e (mem_cons_self ..))]

end Edit

end CameoDb
