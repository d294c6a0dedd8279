import Mathlib.Data.List.Sort

/-! # The first of a sorted list

What is first in an order is first in the sorted list; and the first of a merge of sorted lists are decided by the
first of each. -/

namespace CameoDb.TopSorted
open List

section Partition
variable {α : Type} {le : α → α → Prop} [DecidableRel le] {a : α} {xs ys : List α}

theorem orderedInsert_append_of_forall (h : ∀ y ∈ ys, le a y) :
    (xs ++ ys).orderedInsert le a = xs.orderedInsert le a ++ ys := by
  induction xs with
  | nil =>
    cases ys with
    | nil => rfl
    | cons y ys => exact orderedInsert_cons_of_le le ys (h y mem_cons_self)
  | cons x xs ih =>
    simp only [cons_append, orderedInsert_cons]
    split
    · rfl
    · rw [ih, cons_append]

theorem orderedInsert_append_of_forall_not (h : ∀ x ∈ xs, ¬le a x) :
    (xs ++ ys).orderedInsert le a = xs ++ ys.orderedInsert le a := by
  induction xs with
  | nil => rfl
  | cons x xs ih =>
    rw [cons_append, orderedInsert_of_not_le le _ (h x mem_cons_self),
      ih fun x hx => h x (mem_cons_of_mem _ hx), cons_append]

theorem insertionSort_eq_append (le : α → α → Prop) [DecidableRel le] (p : α → Bool)
    (h : ∀ a b, p a = true → p b = false → le a b ∧ ¬le b a) (l : List α) :
    l.insertionSort le = (l.filter p).insertionSort le ++ (l.filter (!p ·)).insertionSort le := by
  induction l with
  | nil => rfl
  | cons a l ih =>
    rw [insertionSort_cons, ih]
    cases hp : p a with
    | true =>
      have hrest : ∀ y ∈ (l.filter (!p ·)).insertionSort le, le a y := fun y hy => by
        have hy := (mem_filter.mp ((mem_insertionSort le).mp hy)).2
        exact (h a y hp (by simpa using hy)).1
      rw [orderedInsert_append_of_forall hrest]
      simp [hp]
    | false =>
      have hfirst : ∀ x ∈ (l.filter p).insertionSort le, ¬le a x := fun x hx => by
        have hx := (mem_filter.mp ((mem_insertionSort le).mp hx)).2
        exact (h x a hx hp).2
      rw [orderedInsert_append_of_forall_not hfirst]
      simp [hp]

end Partition

section Prefix
variable {α : Type} {le : α → α → Prop} [DecidableRel le] {a : α} {l kept : List α} {n : Nat}

theorem take_orderedInsert (h : n ≤ (l.takeWhile fun b => ¬le a b).length) :
    (l.orderedInsert le a).take n = l.take n := by
  rw [orderedInsert_eq_take_drop, take_append_of_le_length h]
  nth_rewrite 2 [← takeWhile_append_dropWhile (p := fun b => decide ¬le a b) (l := l)]
  rw [take_append_of_le_length h]

variable [IsTrans α le]

theorem countP_le_length_takeWhile (hl : l.Pairwise le) :
    l.countP (fun b => ¬le a b) ≤ (l.takeWhile fun b => ¬le a b).length := by
  induction l with
  | nil => exact Nat.le_refl _
  | cons b l ih =>
    obtain ⟨hb, hl⟩ := pairwise_cons.mp hl
    by_cases hab : le a b
    · have hnone : ∀ c ∈ l, le a c := fun c hc => IsTrans.trans a b c hab (hb c hc)
      simpa [hab] using hnone
    · simpa [hab] using ih hl

variable [Std.Total le]

theorem take_insertionSort_append {rest : List α} (h : ∀ a ∈ rest, n ≤ kept.countP fun b => ¬le a b) :
    ((rest ++ kept).insertionSort le).take n = (kept.insertionSort le).take n := by
  induction rest with
  | nil => rfl
  | cons a rest ih =>
    rw [cons_append, insertionSort_cons, take_orderedInsert, ih fun b hb => h b (mem_cons_of_mem _ hb)]
    calc n ≤ kept.countP (fun b => ¬le a b) := h a mem_cons_self
      _ ≤ (rest ++ kept).countP (fun b => ¬le a b) := (sublist_append_right rest kept).countP_le
      _ = ((rest ++ kept).insertionSort le).countP (fun b => ¬le a b) :=
        ((perm_insertionSort le (rest ++ kept)).countP_eq _).symm
      _ ≤ _ := countP_le_length_takeWhile (pairwise_insertionSort le _)

theorem insertionSort_eq_of_perm {l l' : List α} (hperm : l.Perm l')
    (hanti : ∀ a ∈ l, ∀ b ∈ l, le a b → le b a → a = b) : l.insertionSort le = l'.insertionSort le := by
  refine List.Perm.eq_of_pairwise (fun a b ha hb => ?_) (pairwise_insertionSort le l) (pairwise_insertionSort le l')
    ((perm_insertionSort le l).trans (hperm.trans (perm_insertionSort le l').symm))
  exact hanti a ((mem_insertionSort le).mp ha) b (hperm.mem_iff.mpr ((mem_insertionSort le).mp hb))

theorem perm_drop_append_take (blocks : List (List α)) (n : Nat) :
    blocks.flatten.Perm ((blocks.map (drop n)).flatten ++ (blocks.map (take n)).flatten) := by
  induction blocks with
  | nil => exact List.Perm.refl _
  | cons b blocks ih =>
    simp only [map_cons, flatten_cons]
    have hb : b.Perm (b.drop n ++ b.take n) := by
      nth_rewrite 1 [← take_append_drop n b]
      exact perm_append_comm
    refine (hb.append ih).trans ?_
    rw [append_assoc, append_assoc]
    refine List.Perm.append_left _ ?_
    rw [← append_assoc, ← append_assoc]
    exact List.Perm.append_right _ perm_append_comm

theorem take_insertionSort_flatten {blocks : List (List α)} (hblocks : ∀ b ∈ blocks, b.Pairwise fun x y => ¬le y x)
    (hanti : ∀ a ∈ blocks.flatten, ∀ b ∈ blocks.flatten, le a b → le b a → a = b) (n : Nat) :
    ((blocks.map (take n)).flatten.insertionSort le).take n = (blocks.flatten.insertionSort le).take n := by
  rw [insertionSort_eq_of_perm (perm_drop_append_take blocks n) hanti, take_insertionSort_append]
  intro a ha
  obtain ⟨dropped, hdropped, ha⟩ := mem_flatten.mp ha
  obtain ⟨b, hb, rfl⟩ := mem_map.mp hdropped
  have hbefore : ∀ x ∈ b.take n, ¬le a x := fun x hx => by
    have hsorted := hblocks b hb
    rw [← take_append_drop n b] at hsorted
    exact (pairwise_append.mp hsorted).2.2 x hx a ha
  have hlen : n ≤ b.length := by
    by_contra hshort
    rw [drop_eq_nil_of_le (by omega)] at ha
    cases ha
  calc n = (b.take n).length := (length_take_of_le hlen).symm
    _ = (b.take n).countP (fun x => ¬le a x) := (countP_eq_length.mpr fun x hx => by simpa using hbefore x hx).symm
    _ ≤ _ := (sublist_flatten_of_mem (mem_map_of_mem hb)).countP_le

end Prefix

end CameoDb.TopSorted
