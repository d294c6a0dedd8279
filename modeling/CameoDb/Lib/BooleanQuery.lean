import Mathlib.Data.List.Basic

/-! # Boolean queries

A group selects what all its `must` members, none of its `mustNot` members and at least one other member select. A
leaf under no negation takes nothing back by holding. -/

namespace CameoDb

inductive Occur where
  | must
  | should
  | mustNot
deriving DecidableEq

/-- A member without an occurrence is one that may match, as with `should`. -/
inductive BooleanQuery (L : Type) where
  | clause (clauses : List (Option Occur × BooleanQuery L))
  | boost (inner : BooleanQuery L)
  | leaf (l : L)

namespace BooleanQuery
variable {L : Type}

theorem induction {motive : BooleanQuery L → Prop}
    (clause : ∀ clauses, (∀ c ∈ clauses, motive c.2) → motive (clause clauses))
    (boost : ∀ q, motive q → motive (boost q)) (leaf : ∀ l, motive (leaf l)) (q : BooleanQuery L) : motive q := by
  refine @BooleanQuery.rec L motive (fun cs => ∀ c ∈ cs, motive c.2) (fun c => motive c.2) clause boost leaf ?_ ?_ ?_ q
  · intro c hc
    cases hc
  · intro c cs hc hcs c' hmem
    rcases List.mem_cons.mp hmem with rfl | hmem
    · exact hc
    · exact hcs c' hmem
  · intro occur q hq
    exact hq

/-! ### What a query selects -/

def groupSelects (verdicts : List (Option Occur × Bool)) : Bool :=
  verdicts.all (fun v => v.1 != some .must || v.2) && verdicts.all (fun v => v.1 != some .mustNot || !v.2) &&
    verdicts.any fun v => v.1 != some .mustNot && v.2

mutual

def selects (hit : L → Bool) : BooleanQuery L → Bool
  | .clause clauses => groupSelects (verdicts hit clauses)
  | .boost inner => selects hit inner
  | .leaf l => hit l

def verdicts (hit : L → Bool) : List (Option Occur × BooleanQuery L) → List (Option Occur × Bool)
  | [] => []
  | (occur, q) :: rest => (occur, selects hit q) :: verdicts hit rest

end

theorem verdicts_eq_map (hit : L → Bool) (clauses : List (Option Occur × BooleanQuery L)) :
    verdicts hit clauses = clauses.map fun c => (c.1, c.2.selects hit) := by
  induction clauses with
  | nil => rw [verdicts, List.map_nil]
  | cons c rest ih => rw [verdicts, ih, List.map_cons]

theorem selects_clause {hit : L → Bool} {clauses : List (Option Occur × BooleanQuery L)} :
    (clause clauses).selects hit = true ↔
      (∀ c ∈ clauses, c.1 = some .must → c.2.selects hit = true) ∧
      (∀ c ∈ clauses, c.1 = some .mustNot → c.2.selects hit = false) ∧
      ∃ c ∈ clauses, c.1 ≠ some .mustNot ∧ c.2.selects hit = true := by
  rw [selects, verdicts_eq_map]
  simp [groupSelects, and_assoc, ← imp_iff_not_or]

@[simp] theorem selects_boost (hit : L → Bool) (q : BooleanQuery L) :
    (boost q).selects hit = q.selects hit := by rw [selects]

@[simp] theorem selects_leaf (hit : L → Bool) (l : L) : (leaf l).selects hit = hit l := by rw [selects]

/-! ### Its leaves -/

mutual

def leaves (negated : Bool) : BooleanQuery L → List (Bool × L)
  | .clause clauses => clauseLeaves negated clauses
  | .boost inner => leaves negated inner
  | .leaf l => [(negated, l)]

def clauseLeaves (negated : Bool) : List (Option Occur × BooleanQuery L) → List (Bool × L)
  | [] => []
  | (occur, q) :: rest => leaves (negated || occur = some .mustNot) q ++ clauseLeaves negated rest

end

theorem mem_leaves_clause {negated : Bool} {clauses : List (Option Occur × BooleanQuery L)} {e : Bool × L} :
    e ∈ (clause clauses).leaves negated ↔ ∃ c ∈ clauses, e ∈ c.2.leaves (negated || c.1 = some .mustNot) := by
  rw [leaves]
  induction clauses with
  | nil => simp [clauseLeaves]
  | cons c rest ih => simp [clauseLeaves, ih]

@[simp] theorem leaves_boost (negated : Bool) (q : BooleanQuery L) :
    (boost q).leaves negated = q.leaves negated := by rw [leaves]

@[simp] theorem leaves_leaf (negated : Bool) (l : L) : (leaf l).leaves negated = [(negated, l)] := by rw [leaves]

theorem negated_of_mem_leaves {q : BooleanQuery L} {e : Bool × L} (h : e ∈ q.leaves true) : e.1 = true := by
  induction q using induction with
  | clause clauses ih =>
    obtain ⟨c, hc, he⟩ := mem_leaves_clause.mp h
    exact ih c hc he
  | boost q ih => exact ih (by simpa using h)
  | leaf l =>
    obtain rfl : e = (true, l) := by simpa using h
    rfl

/-! ### Two readings of the leaves -/

section Readings
variable {hit hit' : L → Bool} {q : BooleanQuery L}

theorem selects_congr {negated : Bool} (h : ∀ e ∈ q.leaves negated, hit e.2 = hit' e.2) :
    q.selects hit = q.selects hit' := by
  induction q using induction generalizing negated with
  | clause clauses ih =>
    have same : ∀ c ∈ clauses, c.2.selects hit = c.2.selects hit' :=
      fun c hc => ih c hc fun e he => h e (mem_leaves_clause.mpr ⟨c, hc, he⟩)
    rw [selects, selects, verdicts_eq_map, verdicts_eq_map]
    congr 1
    exact List.map_congr_left fun c hc => by rw [same c hc]
  | boost q ih => simpa using ih (by simpa using h)
  | leaf l => simpa using h

/-- What a query selects under one reading it selects under any other that agrees on the negated leaves and holds at
    least where the first does on the rest. -/
theorem selects_mono (negative : ∀ l, (true, l) ∈ q.leaves false → hit l = hit' l)
    (positive : ∀ l, (false, l) ∈ q.leaves false → hit l = true → hit' l = true) (h : q.selects hit = true) :
    q.selects hit' = true := by
  induction q using induction with
  | clause clauses ih =>
    have member : ∀ c ∈ clauses, c.1 ≠ some .mustNot → c.2.selects hit = true → c.2.selects hit' = true := by
      intro c hc hoccur hsel
      have mem : ∀ e ∈ c.2.leaves false, e ∈ (clause clauses).leaves false :=
        fun e he => mem_leaves_clause.mpr ⟨c, hc, by simpa [hoccur] using he⟩
      exact ih c hc (fun l hl => negative l (mem _ hl)) (fun l hl => positive l (mem _ hl)) hsel
    obtain ⟨hmust, hnot, c, hc, hoccur, hsel⟩ := selects_clause.mp h
    refine selects_clause.mpr ⟨?_, ?_, c, hc, hoccur, member c hc hoccur hsel⟩
    · intro c hc hm
      exact member c hc (by simp [hm]) (hmust c hc hm)
    · intro c hc hn
      have agree : ∀ e ∈ c.2.leaves true, hit e.2 = hit' e.2 := by
        rintro ⟨n, l⟩ he
        obtain rfl : n = true := negated_of_mem_leaves he
        exact negative l (mem_leaves_clause.mpr ⟨c, hc, by simpa [hn] using he⟩)
      rw [← selects_congr agree]
      exact hnot c hc hn
  | boost q ih => simpa using ih (by simpa using negative) (by simpa using positive) (by simpa using h)
  | leaf l => simpa using positive l (by simp) (by simpa using h)

theorem exists_positive (h : q.selects hit = true) : ∃ l, (false, l) ∈ q.leaves false ∧ hit l = true := by
  induction q using induction with
  | clause clauses ih =>
    obtain ⟨-, -, c, hc, hoccur, hsel⟩ := selects_clause.mp h
    obtain ⟨l, hl, hhit⟩ := ih c hc hsel
    exact ⟨l, mem_leaves_clause.mpr ⟨c, hc, by simpa [hoccur] using hl⟩, hhit⟩
  | boost q ih => simpa using ih (by simpa using h)
  | leaf l => exact ⟨l, by simp, by simpa using h⟩

end Readings

/-! ### Leaves that have to hold -/

/-- Every document that `q` selects hits `l`. -/
def Requires (q : BooleanQuery L) (l : L) : Prop := ∀ hit : L → Bool, q.selects hit = true → hit l = true

theorem requires_leaf (l : L) : (leaf l).Requires l := fun _ h => by simpa using h

theorem Requires.boost {q : BooleanQuery L} {l : L} (h : q.Requires l) : (boost q).Requires l :=
  fun hit hsel => h hit (by simpa using hsel)

theorem Requires.of_must {clauses : List (Option Occur × BooleanQuery L)} {q : BooleanQuery L}
    {l : L} (h : q.Requires l) (hc : (some .must, q) ∈ clauses) : (clause clauses).Requires l :=
  fun hit hsel => h hit ((selects_clause.mp hsel).1 _ hc rfl)

/-- The one member of a group of one. -/
theorem Requires.alone {occur : Option Occur} {q : BooleanQuery L} {l : L} (h : q.Requires l) :
    (clause [(occur, q)]).Requires l := by
  intro hit hsel
  obtain ⟨-, -, c, hc, -, hsel⟩ := selects_clause.mp hsel
  obtain rfl := List.mem_singleton.mp hc
  exact h hit hsel

end BooleanQuery

end CameoDb
