import CameoDb.Node.SortValues

/-! # The order of an integer column and the merges' order

The merges compare as `i64` where both values fit and as doubles otherwise: the column's order unless two of those
round to one. -/

namespace CameoDb
open JsonNumber Rounding

/-! ### Conversions -/

theorem asI64_ofI64 (n : Int64) : (ofI64 n).asI64 = some n := by
  unfold ofI64
  split
  · rfl
  · next hn =>
    have hnonneg : 0 ≤ n := Int64.not_lt.mp hn
    have hnat : n.toUInt64.toNat = n.toInt.toNat := Int64.toNat_toUInt64_of_le hnonneg
    have hle : n.toUInt64 ≤ i64Max := by
      rw [UInt64.le_iff_toNat_le, hnat]
      have hbound := Int64.toInt_lt n
      have hmax : i64Max.toNat = 9223372036854775807 := by decide
      omega
    simp only [asI64, if_pos hle, Int64.toInt64_toUInt64]

theorem toInt_toInt64 {n : UInt64} (h : n ≤ i64Max) : n.toInt64.toInt = n.toNat := by
  have hlt : n.toNat < 2 ^ 63 := by
    have := UInt64.le_iff_toNat_le.mp h
    have hmax : i64Max.toNat = 9223372036854775807 := by decide
    omega
  show n.toBitVec.toInt = n.toBitVec.toNat
  rw [BitVec.toInt_eq_toNat_of_lt]
  show 2 * n.toNat < 2 ^ 64
  omega

theorem compare_natCast (m n : Nat) : compare (m : Int) (n : Int) = compare m n := by
  have hcast : StrictMono fun k : Nat => (k : Int) := fun a b hab => Int.ofNat_lt.mpr hab
  rw [← cmp_eq_compare, ← cmp_eq_compare]
  exact hcast.cmp_map_eq m n

theorem compare_ofNat (m n : Nat) :
    compare (F64.ofNat m) (F64.ofNat n) = compare (nearestEven 53 m) (nearestEven 53 n) := by
  have hunits : StrictMono fun k : Nat => (k : Int) * 2 ^ 1074 := fun a b hab =>
    Int.mul_lt_mul_of_pos_right (Int.ofNat_lt.mpr hab) (Int.pow_pos (by decide))
  rw [← cmp_eq_compare, ← cmp_eq_compare]
  exact hunits.cmp_map_eq (nearestEven 53 m) (nearestEven 53 n)

/-! ### Integer columns -/

inductive IntegerColumn where
  | u64
  | i64
  | date
deriving DecidableEq

def IntegerColumn.Produces : IntegerColumn → SortKey → Prop
  | u64, .u64 _ | i64, .i64 _ | date, .date _ => True
  | _, _ => False

def SortKey.value : SortKey → Int
  | u64 value => value.toNat
  | i64 value | date value => value.toInt
  | _ => 0

/-- The order of the column: by value, or exactly the reverse, with a document that has none last. -/
def columnOrder (order : SortOrder) (left right : Option SortKey) : Ordering :=
  match left, right with
  | some x, some y =>
    match order with
    | .asc => compare x.value y.value
    | .desc => compare y.value x.value
  | some _, none => .lt
  | none, some _ => .gt
  | none, none => .eq

instance (order : SortOrder) : Std.TransCmp (columnOrder order) where
  eq_swap {a b} := by
    cases a <;> cases b <;> cases order <;> simp only [columnOrder, Ordering.swap_lt,
      Ordering.swap_gt, Ordering.swap_eq]
    all_goals exact Std.OrientedCmp.eq_swap
  isLE_trans {a b c} hab hbc := by
    cases a <;> cases b <;> cases c <;> cases order <;>
      simp only [columnOrder, Ordering.isLE_lt, Ordering.isLE_eq, Ordering.isLE_gt, Bool.false_eq_true] at hab hbc ⊢
    · exact Std.TransCmp.isLE_trans hab hbc
    · exact Std.TransCmp.isLE_trans hbc hab

/-- Two values that are compared as doubles, since the larger is no `i64`, do not round to one. -/
def Distinguished (keys : Set SortKey) : Prop :=
  ∀ m n : UInt64, .u64 m ∈ keys → .u64 n ∈ keys → m < n → i64Max < n →
    nearestEven 53 m.toNat ≠ nearestEven 53 n.toNat

/-- Keys of these compare as the columns they come from. -/
def OrderedExactly (keys : Set SortKey) : Prop :=
  ∀ order left right, (∀ key ∈ left, key ∈ keys) → (∀ key ∈ right, key ∈ keys) →
    compareSortKeys order left right = columnOrder order left right

theorem compareSortKeys_swap (left right : SortKey) :
    compareSortKeys .desc (some left) (some right) = (compareSortKeys .asc (some left) (some right)).swap := rfl

theorem columnOrder_swap (left right : SortKey) :
    columnOrder .desc (some left) (some right) = (columnOrder .asc (some left) (some right)).swap :=
  Std.OrientedCmp.eq_swap

theorem compareSortKeys_i64 (m n : Int64) : compareSortKeys .asc (some (.i64 m)) (some (.i64 n)) =
    compare m.toInt n.toInt := by
  simp only [compareSortKeys, compareSortValues, Option.map_some, SortKey.toJson, JsonValue.asI64, asI64_ofI64]

theorem compareSortKeys_u64 (m n : UInt64) :
    compareSortKeys .asc (some (.u64 m)) (some (.u64 n)) =
      if m ≤ i64Max ∧ n ≤ i64Max then compare m.toNat n.toNat
      else compare (nearestEven 53 m.toNat) (nearestEven 53 n.toNat) := by
  simp only [compareSortKeys, compareSortValues, Option.map_some, SortKey.toJson, JsonValue.asI64, asI64,
    JsonValue.asF64, asF64, compare_ofNat]
  by_cases hm : m ≤ i64Max <;> by_cases hn : n ≤ i64Max <;>
    simp only [hm, hn, ↓reduceIte, and_self, and_false, false_and]
  rw [toInt_toInt64 hm, toInt_toInt64 hn, compare_natCast]

theorem compareSortKeys_u64_eq_iff {m n : UInt64} (hlt : m < n) :
    compareSortKeys .asc (some (.u64 m)) (some (.u64 n)) = compare m.toNat n.toNat ↔
      (i64Max < n → nearestEven 53 m.toNat ≠ nearestEven 53 n.toNat) := by
  have hnat : m.toNat < n.toNat := UInt64.lt_iff_toNat_lt.mp hlt
  have hmono := nearestEven_mono (p := 53) (by decide) hnat.le
  rw [compareSortKeys_u64, compare_lt_iff_lt.mpr hnat]
  split
  · next hfit => exact ⟨fun _ hbig => absurd hfit.2 (UInt64.not_le.mpr hbig), fun _ => rfl⟩
  · next hbig =>
    have hn : i64Max < n := by
      by_contra hsmall
      have hle := UInt64.not_lt.mp hsmall
      exact hbig ⟨UInt64.le_trans (UInt64.le_of_lt hlt) hle, hle⟩
    rw [compare_lt_iff_lt]
    exact ⟨fun h _ => h.ne, fun h => lt_of_le_of_ne hmono (h hn)⟩

theorem compareSortKeys_u64_comm (m n : UInt64) :
    compareSortKeys .asc (some (.u64 n)) (some (.u64 m)) =
    (compareSortKeys .asc (some (.u64 m)) (some (.u64 n))).swap := by
  rw [compareSortKeys_u64, compareSortKeys_u64]
  by_cases hfit : m ≤ i64Max ∧ n ≤ i64Max
  · rw [if_pos hfit, if_pos hfit.symm]
    exact Std.OrientedCmp.eq_swap
  · rw [if_neg hfit, if_neg fun h => hfit h.symm]
    exact Std.OrientedCmp.eq_swap

theorem compareSortKeys_u64_exact {keys : Set SortKey} (h : Distinguished keys) {m n : UInt64} (hm : .u64 m ∈ keys)
    (hn : .u64 n ∈ keys) : compareSortKeys .asc (some (.u64 m)) (some (.u64 n)) = compare m.toNat n.toNat := by
  rcases Nat.lt_trichotomy m.toNat n.toNat with hlt | heq | hgt
  · have hlt := UInt64.lt_iff_toNat_lt.mpr hlt
    exact (compareSortKeys_u64_eq_iff hlt).mpr (h m n hm hn hlt)
  · rw [compareSortKeys_u64, heq]
    simp
  · have hgt := UInt64.lt_iff_toNat_lt.mpr hgt
    rw [compareSortKeys_u64_comm n m, (compareSortKeys_u64_eq_iff hgt).mpr (h n m hn hm hgt)]
    exact Std.OrientedCmp.eq_swap.symm

/-- Where the keys of one column are compared in ascending order as their values are, the whole order is the
    column's. -/
theorem orderedExactly_iff {keys : Set SortKey} :
    OrderedExactly keys ↔ ∀ x ∈ keys, ∀ y ∈ keys, compareSortKeys .asc (some x) (some y) = compare x.value y.value := by
  constructor
  · intro h x hx y hy
    exact h .asc (some x) (some y) (by simpa using hx) (by simpa using hy)
  · intro h order left right hleft hright
    cases left with
    | none => cases right <;> rfl
    | some x =>
      cases right with
      | none => rfl
      | some y =>
        have hxy := h x (hleft x rfl) y (hright y rfl)
        cases order with
        | asc => exact hxy
        | desc =>
          rw [compareSortKeys_swap, columnOrder_swap, hxy]
          rfl

/-! ### The merge -/

theorem orderRanked_congr {K D : Type} {cmp cmp' : K → K → Ordering} {hits : List ((Nat × Nat) × Hit K D)}
    (h : ∀ a ∈ hits, ∀ b ∈ hits, cmp a.2.key b.2.key = cmp' a.2.key b.2.key) :
    orderRanked cmp hits = orderRanked cmp' hits := by
  have hmap := List.map_insertionSort (fun a b => rankedLe cmp a b = true) (fun a b => rankedLe cmp' a b = true) id hits
    fun a ha b hb => by simp only [rankedLe, id, h a ha b hb]
  rwa [List.map_id, List.map_id] at hmap

/-- On the keys of an integer column the merges' order is the column's, and the node's merge then orders every set
    of hits as the column does, exactly if no two of the values round to one double of which one is above the
    largest `i64`. -/
theorem sort_values_exact_iff (column : IntegerColumn) (keys : Set SortKey)
    (hcolumn : ∀ key ∈ keys, column.Produces key) : (OrderedExactly keys ↔ Distinguished keys) ∧
      (Distinguished keys → ∀ order hits, (∀ hit ∈ hits, ∀ key ∈ hit.2.key, key ∈ keys) →
        orderKeyHits order hits = orderRanked (columnOrder order) hits) := by
  have hexact : OrderedExactly keys ↔ Distinguished keys := by
    rw [orderedExactly_iff]
    constructor
    · intro h m n hm hn hlt hbig
      refine (compareSortKeys_u64_eq_iff hlt).mp ?_ hbig
      rw [h _ hm _ hn]
      exact compare_natCast m.toNat n.toNat
    · intro h x hx y hy
      have hcx := hcolumn x hx
      have hcy := hcolumn y hy
      cases column <;> cases x <;> (try cases hcx) <;> cases y <;> (try cases hcy)
      · rw [compareSortKeys_u64_exact h hx hy]
        exact (compare_natCast _ _).symm
      · exact compareSortKeys_i64 _ _
      · exact compareSortKeys_i64 _ _
  refine ⟨hexact, fun h order hits hkeys => ?_⟩
  exact orderRanked_congr fun a ha b hb => hexact.mpr h order _ _ (hkeys a ha) (hkeys b hb)

theorem sort_values_exact_iff_i64 : OrderedExactly {key | IntegerColumn.i64.Produces key} :=
  (sort_values_exact_iff .i64 {key | IntegerColumn.i64.Produces key} fun _ h => h).1.mpr fun _ _ hm => by cases hm

/-- Around the largest `i64` the order of a `u64` column is lost: two values are as good as equal, and equal to them
    both is one that is less than the other. -/
theorem u64_order_lost :
    compareSortKeys .asc (some (.u64 9223372036854775808)) (some (.u64 9223372036854775809)) = .eq ∧
      compareSortKeys .asc (some (.u64 9223372036854775806)) (some (.u64 9223372036854775807)) = .lt ∧
      compareSortKeys .asc (some (.u64 9223372036854775806)) (some (.u64 9223372036854775808)) = .eq ∧
      compareSortKeys .asc (some (.u64 9223372036854775807)) (some (.u64 9223372036854775808)) = .eq ∧
      ¬OrderedExactly {key | IntegerColumn.u64.Produces key} := by
  have hlost : compareSortKeys .asc (some (.u64 9223372036854775808)) (some (.u64 9223372036854775809)) = .eq := by
    rw [compareSortKeys_u64]
    decide
  refine ⟨hlost, ?_, ?_, ?_, fun h => ?_⟩
  · rw [compareSortKeys_u64]
    decide
  · rw [compareSortKeys_u64]
    decide
  · rw [compareSortKeys_u64]
    decide
  · have hcolumn := orderedExactly_iff.mp h (.u64 9223372036854775808) trivial (.u64 9223372036854775809) trivial
    rw [hlost] at hcolumn
    exact absurd hcolumn (by decide)

end CameoDb
