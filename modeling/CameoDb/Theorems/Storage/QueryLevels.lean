import CameoDb.Lib.BottomSum

/-! # The levels of a query and of its rewrite

What a character does to the levels is an effect, the same on both sides except where a word ended on one of them. -/

namespace CameoDb
open List

/-- The levels counted: those of each open group with its `NOT`s, and the `NOT`s that wait for their leaf. -/
structure Load where
  groups : List Nat := []
  pending : Nat := 0
  deepest : Nat := 0

inductive LevelEffect where
  | keep
  | push
  | pop
  | count
  | reset

namespace Load

def level (l : Load) : Nat := l.groups.sum + l.pending

/-- No level is open. -/
def Idle (l : Load) : Prop := l.groups = [] ∧ l.pending = 0

instance (l : Load) : Decidable l.Idle := inferInstanceAs (Decidable (_ ∧ _))

def apply (l : Load) : LevelEffect → Load
  | .keep => l
  | .push => ⟨(1 + l.pending) :: l.groups, 0, max l.deepest (l.level + 1)⟩
  | .pop => ⟨l.groups.tail, 0, l.deepest⟩
  | .count => ⟨l.groups, l.pending + 1, max l.deepest (l.level + 1)⟩
  | .reset => ⟨l.groups, 0, l.deepest⟩

variable {l : Load}

theorem level_push : (l.apply .push).level = l.level + 1 := by
  simp only [level, apply, sum_cons]
  omega

theorem level_count : (l.apply .count).level = l.level + 1 := rfl

theorem Idle.pop (h : l.Idle) : (l.apply .pop).Idle := ⟨by simp [apply, h.1], rfl⟩

theorem Idle.reset (h : l.Idle) : (l.apply .reset).Idle := ⟨h.1, rfl⟩

theorem not_idle_count : ¬(l.apply .count).Idle := fun h => absurd h.2 (Nat.succ_ne_zero _)

theorem not_idle_push : ¬(l.apply .push).Idle := fun h => absurd h.1 (cons_ne_nil _ _)

end Load

/-- A wrap that is open: how many groups the query had open at its leaf, and the levels of the leaf read alone. -/
abbrev Wrap := Nat × Load

/-- The wraps around the groups from some number on. -/
def wrapsBelow (wraps : List Wrap) (count : Nat) : Nat := wraps.countP fun wrap => wrap.1 < count

def applyWraps (wraps : List Wrap) (e : LevelEffect) : List Wrap := wraps.map fun wrap => (wrap.1, wrap.2.apply e)

/-- The levels of the rewrite, next to those of the query and the wraps that are open. A wrap whose leaf is idle is
    one the query no longer counts. -/
structure Levels (wraps : List Wrap) (l l' : Load) : Prop where
  deepest : l'.deepest ≤ l.deepest
  tracked : ∀ wrap ∈ wraps, ¬wrap.2.Idle → l.groups.length = wrap.1 + wrap.2.groups.length
  nested : wraps.Pairwise fun inner outer => outer.2.groups = [] → outer.2.pending ≠ 0 → inner.2.pending ≠ 0
  sized : l'.groups.length = l.groups.length + wraps.length ∨
    l.groups = [] ∧ l'.groups.length ≤ wraps.length ∧ ∀ wrap ∈ wraps, wrap.2.Idle
  under : ∀ j ≤ l.groups.length, bottomSum l'.groups (j + wrapsBelow wraps j) ≤ bottomSum l.groups j
  held : (∀ wrap ∈ wraps, ¬wrap.2.Idle) → l'.level ≤ l.level

namespace Levels

variable {wraps : List Wrap} {l l' l'' : Load} {e : LevelEffect}

theorem wrapsBelow_apply (e : LevelEffect) (j : Nat) : wrapsBelow (applyWraps wraps e) j = wrapsBelow wraps j := by
  rw [wrapsBelow, applyWraps, countP_map]
  rfl

theorem wrapsBelow_le (j : Nat) : wrapsBelow wraps j ≤ wraps.length := countP_le_length

theorem wrapsBelow_all {j : Nat} (h : ∀ wrap ∈ wraps, wrap.1 < j) : wrapsBelow wraps j = wraps.length :=
  countP_eq_length.mpr fun wrap hwrap => by simpa using h wrap hwrap

theorem forall_applyWraps {P : Wrap → Prop} : (∀ wrap ∈ applyWraps wraps e, P wrap) ↔ ∀ wrap ∈ wraps, P
    (wrap.1, wrap.2.apply e) :=
  forall_mem_map

theorem length_eq (h : Levels wraps l l') (hopen : ∀ wrap ∈ wraps, ¬wrap.2.Idle) :
    l'.groups.length = l.groups.length + wraps.length := by
  rcases h.sized with h | ⟨hgroups, hlength, hidle⟩
  · exact h
  · cases wraps with
    | nil =>
      rw [hgroups]
      simpa using hlength
    | cons wrap wraps => exact absurd (hidle wrap mem_cons_self) (hopen wrap mem_cons_self)

theorem length_le (h : Levels wraps l l') : l'.groups.length ≤ l.groups.length + wraps.length := by
  rcases h.sized with h | ⟨hgroups, hlength, -⟩
  · exact h.le
  · exact hlength.trans (Nat.le_add_left _ _)

/-- The groups of the rewrite weigh no more where every wrap is around a group. -/
theorem sum_le (h : Levels wraps l l') (hbelow : ∀ wrap ∈ wraps, wrap.1 < l.groups.length) :
    l'.groups.sum ≤ l.groups.sum := by
  have hunder := h.under _ (Nat.le_refl _)
  rwa [wrapsBelow_all hbelow, bottomSum_all h.length_le, bottomSum_all (Nat.le_refl _)] at hunder

/-- The rewrite may count less. -/
theorem mono_right (h : Levels wraps l l') (hgroups : l''.groups = l'.groups) (hpending : l''.pending ≤ l'.pending)
    (hdeepest : l''.deepest ≤ l'.deepest) : Levels wraps l l'' where
  deepest := hdeepest.trans h.deepest
  tracked := h.tracked
  nested := h.nested
  sized := by rw [hgroups]; exact h.sized
  under := by rw [hgroups]; exact h.under
  held hopen := by
    have := h.held hopen
    simp only [Load.level, hgroups] at this ⊢
    omega

/-- A group opens. -/
theorem push (h : Levels wraps l l') (hopen : ∀ wrap ∈ wraps, ¬wrap.2.Idle) :
    Levels (applyWraps wraps .push) (l.apply .push) (l'.apply .push) where
  deepest := by
    have := h.deepest
    have := h.held hopen
    simp only [Load.apply]
    omega
  tracked := forall_applyWraps.mpr fun wrap hwrap _ => by
    simp only [Load.apply, length_cons, h.tracked wrap hwrap (hopen wrap hwrap)]
    omega
  nested := pairwise_map.mpr (pairwise_of_forall fun _ _ h => absurd h (cons_ne_nil _ _))
  sized := .inl (by
    simp only [Load.apply, length_cons, h.length_eq hopen, applyWraps, length_map]
    omega)
  under j hj := by
    rw [wrapsBelow_apply]
    have hlength := h.length_eq hopen
    by_cases hlast : j = l.groups.length + 1
    · -- The new group holds the `NOT`s that waited for it, with their wraps.
      have hbelow : wrapsBelow wraps j = wraps.length := wrapsBelow_all fun wrap hwrap => by
        have := h.tracked wrap hwrap (hopen wrap hwrap)
        omega
      have hlevel := h.held hopen
      rw [bottomSum_all (by simp only [Load.apply, length_cons]; omega),
        bottomSum_all (by simp only [Load.apply, length_cons]; omega)]
      simp only [Load.apply, sum_cons, Load.level] at hlevel ⊢
      omega
    · have hle : j ≤ l.groups.length := by
        simp only [Load.apply, length_cons] at hj
        omega
      have := @wrapsBelow_le wraps j
      simp only [Load.apply]
      rw [bottomSum_push hle, bottomSum_push (by omega)]
      exact h.under j hle
  held _ := by
    rw [Load.level_push, Load.level_push]
    exact Nat.succ_le_succ (h.held hopen)

/-- A group closes, on both sides. -/
theorem pop (h : Levels wraps l l') : Levels (applyWraps wraps .pop) (l.apply .pop) (l'.apply .pop) := by
  -- A leaf that still counts after this has two groups open or more.
  have hcounts : ∀ wrap ∈ wraps, ¬(wrap.2.apply .pop).Idle → 1 < wrap.2.groups.length ∧
      l.groups.length = wrap.1 + wrap.2.groups.length := by
    intro wrap hwrap hidle
    have htail : wrap.2.groups.tail ≠ [] := fun h => hidle ⟨h, rfl⟩
    have hlength := length_pos_iff.mpr htail
    rw [length_tail] at hlength
    exact ⟨by omega, h.tracked wrap hwrap fun hidle => by rw [hidle.1] at htail; exact htail rfl⟩
  have hunder : ∀ j ≤ l.groups.tail.length, bottomSum l'.groups.tail (j + wrapsBelow wraps j) ≤
      bottomSum l.groups.tail j := by
    intro j hj
    have hle : j ≤ l.groups.length := by rw [length_tail] at hj; omega
    calc bottomSum l'.groups.tail (j + wrapsBelow wraps j) ≤ bottomSum l'.groups (j + wrapsBelow wraps j) :=
      bottomSum_tail_le
      _ ≤ bottomSum l.groups j := h.under j hle
      _ = bottomSum l.groups.tail j := (bottomSum_tail hj).symm
  refine ⟨h.deepest, ?_, ?_, ?_, fun j hj => by rw [wrapsBelow_apply]; exact hunder j hj, fun hopen => ?_⟩
  · refine forall_applyWraps.mpr fun wrap hwrap hidle => ?_
    obtain ⟨hmany, hlength⟩ := hcounts wrap hwrap hidle
    simp only [Load.apply, length_tail]
    omega
  · exact pairwise_map.mpr (pairwise_of_forall fun _ _ _ h => absurd rfl h)
  · simp only [applyWraps, length_map, Load.apply, length_tail]
    rcases h.sized with hlength | ⟨hgroups, hlength, hidle⟩
    · by_cases hzero : l.groups = []
      · refine .inr ⟨by simp [hzero], by rw [hzero] at hlength; simp at hlength; omega, ?_⟩
        refine forall_mem_map.mpr fun wrap hwrap => ?_
        by_contra hidle
        obtain ⟨hmany, hlength⟩ := hcounts wrap hwrap hidle
        rw [hzero, length_nil] at hlength
        omega
      · have := length_pos_iff.mpr hzero
        exact .inl (by omega)
    · exact .inr ⟨by simp [hgroups], by omega, forall_mem_map.mpr fun wrap hwrap => (hidle wrap hwrap).pop⟩
  · rw [forall_applyWraps] at hopen
    have hbelow : wrapsBelow wraps l.groups.tail.length = wraps.length := wrapsBelow_all fun wrap hwrap => by
      obtain ⟨hmany, hlength⟩ := hcounts wrap hwrap (hopen wrap hwrap)
      rw [length_tail]
      omega
    have hlength := h.length_le
    have hall := hunder _ (Nat.le_refl _)
    rwa [hbelow, bottomSum_all (Nat.le_refl _), bottomSum_all (by simp only [length_tail]; omega)] at hall

/-- A word ends, and the `NOT`s in front of it with it. -/
theorem reset (h : Levels wraps l l') (hgroups : l''.groups = l'.groups) (hpending : l''.pending = 0)
    (hdeepest : l''.deepest = l'.deepest) : Levels (applyWraps wraps .reset) (l.apply .reset) l'' where
  deepest := hdeepest.trans_le h.deepest
  tracked := forall_applyWraps.mpr fun wrap hwrap hidle => h.tracked wrap hwrap fun h => hidle h.reset
  nested := pairwise_map.mpr (pairwise_of_forall fun _ _ _ h => absurd rfl h)
  sized := by
    rw [hgroups, applyWraps, length_map]
    exact h.sized.imp id fun ⟨hnil, hlength, hidle⟩ =>
      ⟨hnil, hlength, forall_mem_map.mpr fun wrap hwrap => (hidle wrap hwrap).reset⟩
  under j hj := by
    rw [wrapsBelow_apply, hgroups]
    exact h.under j hj
  held hopen := by
    rw [forall_applyWraps] at hopen
    have hsum := h.sum_le fun wrap hwrap => by
      have hne : wrap.2.groups ≠ [] := fun h => hopen wrap hwrap ⟨h, rfl⟩
      have := length_pos_iff.mpr hne
      have := h.tracked wrap hwrap fun h => hne h.1
      omega
    rw [Load.level, hgroups, hpending]
    exact hsum

theorem count (h : Levels wraps l l') (hopen : ∀ wrap ∈ wraps, ¬wrap.2.Idle) :
    Levels (applyWraps wraps .count) (l.apply .count) l' where
  deepest := h.deepest.trans (Nat.le_max_left _ _)
  tracked := forall_applyWraps.mpr fun wrap hwrap _ => h.tracked wrap hwrap (hopen wrap hwrap)
  nested := pairwise_map.mpr (pairwise_of_forall fun _ _ _ _ => Nat.succ_ne_zero _)
  sized := .inl (by rw [applyWraps, length_map]; exact h.length_eq hopen)
  under j hj := by
    rw [wrapsBelow_apply]
    exact h.under j hj
  held _ := (h.held hopen).trans (Nat.le_succ _)

theorem count_both (h : Levels wraps l l') (hopen : ∀ wrap ∈ wraps, ¬wrap.2.Idle) :
    Levels (applyWraps wraps .count) (l.apply .count) (l'.apply .count) where
  deepest := by
    have := h.deepest
    have := h.held hopen
    simp only [Load.apply]
    omega
  tracked := (h.count hopen).tracked
  nested := (h.count hopen).nested
  sized := (h.count hopen).sized
  under := (h.count hopen).under
  held _ := Nat.succ_le_succ (h.held hopen)

/-- A `NOT` is counted for the query and opens a wrap in the rewrite. -/
theorem wrap (h : Levels wraps l l') (hopen : ∀ wrap ∈ wraps, ¬wrap.2.Idle) :
    Levels ((l.groups.length, { pending := 1 }) :: applyWraps wraps .count) (l.apply .count) (l'.apply .push) where
  deepest := by
    have := h.deepest
    have := h.held hopen
    simp only [Load.apply]
    omega
  tracked := forall_mem_cons.mpr ⟨fun _ => rfl, (h.count hopen).tracked⟩
  nested := pairwise_cons.mpr ⟨fun _ _ _ _ => Nat.one_ne_zero, (h.count hopen).nested⟩
  sized := .inl (by
    simp only [Load.apply, length_cons, h.length_eq hopen, applyWraps, length_map]
    omega)
  under j hj := by
    have hle : j ≤ l.groups.length := hj
    have hbelow : wrapsBelow ((l.groups.length, { pending := 1 }) :: applyWraps wraps .count) j =
        wrapsBelow wraps j := by
      rw [← @wrapsBelow_apply wraps .count, wrapsBelow, countP_cons_of_neg (by simpa using hle), wrapsBelow]
    have hlength := h.length_eq hopen
    have := @wrapsBelow_le wraps j
    rw [hbelow]
    simp only [Load.apply]
    rw [bottomSum_push (by omega)]
    exact h.under j hle
  held _ := by
    rw [Load.level_push, Load.level_count]
    exact Nat.succ_le_succ (h.held hopen)

theorem close {wrap : Wrap} (h : Levels (wrap :: wraps) l l') : Levels wraps l (l'.apply .pop) := by
  have hunder : ∀ j ≤ l.groups.length, bottomSum l'.groups.tail (j + wrapsBelow wraps j) ≤ bottomSum l.groups j := by
    intro j hj
    have hmore : wrapsBelow wraps j ≤ wrapsBelow (wrap :: wraps) j := List.Sublist.countP_le (sublist_cons_self _ _)
    calc bottomSum l'.groups.tail (j + wrapsBelow wraps j) ≤ bottomSum l'.groups (j + wrapsBelow wraps j) :=
      bottomSum_tail_le
      _ ≤ bottomSum l'.groups (j + wrapsBelow (wrap :: wraps) j) := bottomSum_mono (by omega)
      _ ≤ bottomSum l.groups j := h.under j hj
  obtain ⟨hinner, hnested⟩ := pairwise_cons.mp h.nested
  refine ⟨h.deepest, fun other hother => h.tracked other (mem_cons_of_mem _ hother), hnested, ?_,
    hunder, fun hopen => ?_⟩
  · simp only [Load.apply, length_tail]
    rcases h.sized with hlength | ⟨hgroups, hlength, hidle⟩
    · rw [length_cons] at hlength
      exact .inl (by omega)
    · rw [length_cons] at hlength
      exact .inr ⟨hgroups, by omega, fun other hother => hidle other (mem_cons_of_mem _ hother)⟩
  · by_cases hidle : wrap.2.Idle
    · -- The leaf of an outer wrap has a group open, or its `NOT`s would have been dropped with those of this one.
      have hbelow : ∀ other ∈ wraps, other.1 < l.groups.length := by
        intro other hother
        have hne : other.2.groups ≠ [] := fun hnil =>
          hinner other hother hnil (fun hzero => hopen other hother ⟨hnil, hzero⟩) hidle.2
        have := length_pos_iff.mpr hne
        have := h.tracked other (mem_cons_of_mem _ hother) (hopen other hother)
        omega
      have hall := hunder _ (Nat.le_refl _)
      have hlength := h.length_le
      rw [length_cons] at hlength
      rw [wrapsBelow_all hbelow, bottomSum_all (Nat.le_refl _), bottomSum_all (by rw [length_tail]; omega)] at hall
      exact hall.trans (Nat.le_add_right _ _)
    · have hlevel := h.held (forall_mem_cons.mpr ⟨hidle, hopen⟩)
      have htail : l'.groups.tail.sum ≤ l'.groups.sum := by
        rw [← drop_one]
        exact sum_drop_le _ _
      simp only [Load.level, Load.apply] at hlevel ⊢
      omega

end Levels

end CameoDb
