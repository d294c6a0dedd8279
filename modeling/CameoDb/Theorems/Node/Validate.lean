import CameoDb.Node.Validate

/-! # The check and the writer agree

The two part over a null under a json field, which the check takes to be no value and the writer adds as a text. -/

namespace CameoDb
open List Option FieldDef JsonValue

section Leaves
variable (p : Parsers) (field : String)

def leaves (fieldType : TantivyFieldType) (value : JsonValue) : List JsonValue :=
  (if fieldType = .json then [value] else oneOrMany value).filter (· ≠ .null)

/-- What the index holds of one of them, if it can. -/
def leafValue (fieldType : TantivyFieldType) (leaf : JsonValue) : Option TantivyValue :=
  match fieldType with
  | .text => some (.str (leaf.asStr.getD (p.jsonText leaf)))
  | .json => some (.str (p.jsonText leaf))
  | .bytes => none
  | scalar =>
    match scalarValue p field scalar .refuse leaf with
    | .ok value => value
    | .error _ => none

/-- The check passes just when every leaf is stored. -/
def LeafByLeaf (fieldType : TantivyFieldType) (value : JsonValue) : Prop :=
  (unstorableValue p field fieldType value = none →
    ∃ values, addJsonValueToDoc p field fieldType value .refuse = .ok values ∧
    List.Forall₂ (fun leaf value => leafValue p field fieldType leaf = some value) (leaves fieldType value) values) ∧
  (unstorableValue p field fieldType value ≠ none →
    ∀ values, addJsonValueToDoc p field fieldType value .refuse = .ok values →
    values.length < (leaves fieldType value).length)

/-- An array that passes the check is stored byte by byte. -/
def BytesWhole (value : JsonValue) : Prop :=
  unstorableValue p field .bytes value = none →
    ∃ bytes : List UInt8, List.Forall₂ (fun item byte => item.asU64 = some byte.toUInt64)
      (value.asArray.getD []) bytes ∧
      addJsonValueToDoc p field .bytes value .refuse = .ok (if bytes = [] then [] else [.bytes bytes])

/-- The check and the writer agree on a value. -/
def Agree (fieldType : TantivyFieldType) (value : JsonValue) : Prop :=
  if fieldType = .bytes then BytesWhole p field value else LeafByLeaf p field fieldType value

end Leaves

variable {p : Parsers} {field : String} {fieldType : TantivyFieldType}

/-! ### Types that hold one value per entry -/

/-- The types whose values are looked at one by one. -/
def TantivyFieldType.isScalar : TantivyFieldType → Bool
  | text | json | bytes => false
  | _ => true

theorem scalarValue_null : scalarValue p field fieldType .refuse .null = .ok none := by
  cases fieldType <;> rfl

theorem ite_none_some_eq_none {α : Type} {c : Prop} [Decidable c] {a : α} :
    (if c then none else some a) = none ↔ c := by
  split <;> simp_all

variable {value : JsonValue} {items : List JsonValue}

theorem leafValue_of_manyShape (h : fieldType.isScalar) (hshape : (manyShape value).isSome) :
    leafValue p field fieldType value = none := by
  cases value with
  | array items | object members => cases fieldType <;> first | rfl | cases h
  | _ => cases hshape

theorem inferTypeFromValue_eq_boolean (hshape : manyShape value = none) :
    TantivyFieldType.boolean = inferTypeFromValue p value ↔ value.asBool.isSome := by
  cases value with
  | bool b => simp [inferTypeFromValue, inferLeafType, asBool]
  | number n | string s =>
    simp only [inferTypeFromValue, inferLeafType, asBool]
    split
    · simp
    · split <;> simp
  | null => simp [inferTypeFromValue, inferLeafType, asBool]
  | _ => cases hshape

theorem unstorableScalar_eq_none_iff (h : fieldType.isScalar) (value : JsonValue) :
    unstorableScalar p field fieldType value = none ↔ value = .null ∨ (leafValue p field fieldType value).isSome := by
  unfold unstorableScalar
  by_cases hnull : value = .null
  · simp [hnull]
  rw [or_iff_right hnull, if_neg hnull]
  cases hshape : manyShape value with
  | some shape => simp [leafValue_of_manyShape h (isSome_of_eq_some hshape)]
  | none =>
    cases fieldType with
    | text | json | bytes => cases h
    | string | i64 | u64 =>
      refine ite_none_some_eq_none.trans ?_
      simp only [scalarTypeIsStorable, leafValue, scalarValue, isSome_map]
    | f64 =>
      refine ite_none_some_eq_none.trans ?_
      cases value <;> simp [scalarTypeIsStorable, leafValue, scalarValue, isNumber]
    | boolean =>
      refine ite_none_some_eq_none.trans ?_
      simp only [scalarTypeIsStorable, decide_eq_true_eq, leafValue, scalarValue, isSome_map,
        inferTypeFromValue_eq_boolean hshape]
    | ip =>
      refine ite_none_some_eq_none.trans ?_
      simp only [leafValue, scalarValue, isSome_map]
    | date =>
      refine ite_none_some_eq_none.trans ?_
      cases value <;> simp [isDateValue, leafValue, scalarValue]
    | facet =>
      simp only [leafValue, scalarValue]
      cases value.asStr with
      | none => simp
      | some path => cases hfacet : p.facet path <;> simp [facetPathError, hfacet]

theorem ne_json_of_isScalar (h : fieldType.isScalar) : fieldType ≠ .json := by
  rintro rfl
  cases h

theorem unstorableValue_eq_none_iff (h : fieldType.isScalar) (value : JsonValue) :
    unstorableValue p field fieldType value = none ↔
    ∀ leaf ∈ leaves fieldType value, (leafValue p field fieldType leaf).isSome := by
  have hmany : unstorableValue p field fieldType value = none ↔
      ∀ item ∈ oneOrMany value, unstorableScalar p field fieldType item = none := by
    unfold unstorableValue oneOrMany
    by_cases hnull : value = .null
    · simp [hnull, asArray, unstorableScalar]
    rw [if_neg hnull]
    cases fieldType <;> first | (cases value.asArray <;> simp; done) | cases h
  rw [hmany, leaves, if_neg (ne_json_of_isScalar h)]
  simp only [unstorableScalar_eq_none_iff h, mem_filter, decide_eq_true_eq, and_imp, or_iff_not_imp_left]

theorem scalarValue_cases (p : Parsers) (field : String) (h : fieldType.isScalar) (value : JsonValue) :
    (∃ e, scalarValue p field fieldType .refuse value = .error e ∧ leafValue p field fieldType value = none) ∨
      scalarValue p field fieldType .refuse value = .ok (leafValue p field fieldType value) := by
  have hleaf : leafValue p field fieldType value =
      match scalarValue p field fieldType .refuse value with
      | .ok value => value
      | .error _ => none := by
    cases fieldType <;> first | rfl | cases h
  cases hvalue : scalarValue p field fieldType .refuse value with
  | error e => exact .inl ⟨e, rfl, by rw [hleaf, hvalue]⟩
  | ok found => exact .inr (by rw [hleaf, hvalue])

theorem scalarValues_of_forall (h : fieldType.isScalar)
    (hall : ∀ leaf ∈ items.filter (· ≠ .null), (leafValue p field fieldType leaf).isSome) :
    ∃ values, scalarValues p field fieldType .refuse items = .ok values ∧
      List.Forall₂ (fun leaf value => leafValue p field fieldType leaf = some value)
      (items.filter (· ≠ .null)) values := by
  induction items with
  | nil => exact ⟨[], rfl, .nil⟩
  | cons item items ih =>
    by_cases hnull : item = .null
    · subst hnull
      rw [filter_cons_of_neg (by simp)] at hall ⊢
      obtain ⟨values, hvalues, hheld⟩ := ih hall
      exact ⟨values, by simp [scalarValues, scalarValue_null, hvalues], hheld⟩
    · rw [filter_cons_of_pos (by simpa using hnull), forall_mem_cons] at hall
      rw [filter_cons_of_pos (by simpa using hnull)]
      obtain ⟨values, hvalues, hheld⟩ := ih hall.2
      obtain ⟨value, hvalue⟩ := isSome_iff_exists.mp hall.1
      rcases scalarValue_cases p field h item with ⟨e, -, hnone⟩ | hscalar
      · rw [hnone] at hvalue
        cases hvalue
      · rw [hvalue] at hscalar
        exact ⟨value :: values, by simp [scalarValues, hscalar, hvalues], .cons hvalue hheld⟩

theorem length_scalarValues (h : fieldType.isScalar) {values : List TantivyValue}
    (hvalues : scalarValues p field fieldType .refuse items = .ok values) :
    values.length + (items.filter fun item => item ≠ .null ∧ leafValue p field fieldType item = none).length =
      (items.filter (· ≠ .null)).length := by
  induction items generalizing values with
  | nil =>
    cases hvalues
    rfl
  | cons item items ih =>
    rcases scalarValue_cases p field h item with ⟨e, hscalar, -⟩ | hscalar
    · simp [scalarValues, hscalar] at hvalues
    · cases hrest : scalarValues p field fieldType .refuse items with
      | error e => simp [scalarValues, hscalar, hrest] at hvalues
      | ok more =>
        simp only [scalarValues, hscalar, hrest, Except.ok.injEq] at hvalues
        subst hvalues
        have ih := ih hrest
        by_cases hnull : item = .null
        · have hnone : leafValue p field fieldType item = none := by
            rw [hnull] at hscalar ⊢
            exact (Except.ok.inj (scalarValue_null.symm.trans hscalar)).symm
          simpa [hnull ▸ hnone, hnull] using ih
        · cases hleaf : leafValue p field fieldType item <;> simp_all <;> omega

theorem leafByLeaf_of_isScalar (h : fieldType.isScalar) (value : JsonValue) : LeafByLeaf p field fieldType value := by
  have hleaves : leaves fieldType value = (oneOrMany value).filter (· ≠ .null) := by
    rw [leaves, if_neg (ne_json_of_isScalar h)]
  have hadd : addJsonValueToDoc p field fieldType value .refuse = scalarValues p field fieldType .refuse
      (oneOrMany value) := by
    cases fieldType <;> first | rfl | cases h
  rw [LeafByLeaf, ne_eq, unstorableValue_eq_none_iff h, hadd, hleaves]
  refine ⟨scalarValues_of_forall h, fun hrefused values hvalues => ?_⟩
  rw [← length_scalarValues h hvalues]
  have hlost : (oneOrMany value).filter (fun item => item ≠ .null ∧ leafValue p field fieldType item = none) ≠ [] := by
    simpa [filter_eq_nil_iff, isSome_iff_ne_none] using hrefused
  exact Nat.lt_add_of_pos_right (length_pos_iff.mpr hlost)

/-! ### Text and json -/

theorem forall₂_textValues (items : List JsonValue) :
    List.Forall₂ (fun leaf value => leafValue p field .text leaf = some value) (items.filter (· ≠ .null))
    (textValues p items) := by
  induction items with
  | nil => exact .nil
  | cons item items ih =>
    cases item with
    | null => simpa [textValues] using ih
    | _ => exact .cons rfl ih

theorem leafByLeaf_text (value : JsonValue) : LeafByLeaf p field .text value := by
  have haccepted : unstorableValue p field .text value = none := by
    unfold unstorableValue
    split <;> rfl
  exact ⟨fun _ => ⟨_, rfl, forall₂_textValues _⟩, fun hrefused => absurd haccepted hrefused⟩

theorem leafByLeaf_json_iff (value : JsonValue) : LeafByLeaf p field .json value ↔ value ≠ .null := by
  have haccepted : unstorableValue p field .json value = none := by
    unfold unstorableValue
    split <;> rfl
  constructor
  · rintro ⟨hheld, -⟩ rfl
    obtain ⟨values, hvalues, hforall⟩ := hheld haccepted
    cases hvalues
    cases hforall
  · intro hnull
    refine ⟨fun _ => ⟨_, rfl, ?_⟩, fun hrefused => absurd haccepted hrefused⟩
    rw [leaves, if_pos rfl, filter_cons_of_pos (by simpa using hnull)]
    exact .cons rfl .nil

/-! ### Bytes -/

theorem byteValueError_eq_none_iff {item : JsonValue} :
    byteValueError p item = none ↔ ∃ n, item.asU64 = some n ∧ n ≤ 255 := by
  unfold byteValueError
  cases item.asU64 <;> simp

theorem byteValues_of_forall (field : String) (hall : ∀ item ∈ items, byteValueError p item = none) (acc : List UInt8) :
    ∃ bytes : List UInt8, List.Forall₂ (fun item byte => item.asU64 = some byte.toUInt64) items bytes ∧
      byteValues p field .refuse items acc = .ok (acc ++ bytes) := by
  induction items generalizing acc with
  | nil => exact ⟨[], .nil, by simp [byteValues]⟩
  | cons item items ih =>
    rw [forall_mem_cons] at hall
    obtain ⟨n, hn, hle⟩ := byteValueError_eq_none_iff.mp hall.1
    obtain ⟨bytes, hbytes, hread⟩ := ih hall.2 (acc ++ [n.toUInt8])
    have hbyte : n.toUInt8.toUInt64 = n := by
      have hlt : n.toNat < 256 := Nat.lt_succ_of_le (UInt64.le_iff_toNat_le.mp hle)
      exact UInt64.toNat_inj.mp (by simpa using hlt)
    refine ⟨n.toUInt8 :: bytes, .cons (by rw [hn, hbyte]) hbytes, ?_⟩
    rw [byteValues, hn]
    simp only [hle, if_true, hread, append_assoc, singleton_append]

theorem bytesWhole (value : JsonValue) : BytesWhole p field value := by
  intro haccepted
  cases value with
  | null => exact ⟨[], .nil, rfl⟩
  | array items =>
    have hall : ∀ item ∈ items, byteValueError p item = none := by
      simpa [unstorableValue, asArray] using haccepted
    obtain ⟨bytes, hbytes, hread⟩ := byteValues_of_forall field hall []
    refine ⟨bytes, hbytes, ?_⟩
    simp only [addJsonValueToDoc, asArray, hread, nil_append]
    cases bytes <;> rfl
  | _ => cases haccepted

theorem check_agrees_iff (p : Parsers) (field : String) (fieldType : TantivyFieldType) (value : JsonValue) :
    Agree p field fieldType value ↔ ¬(fieldType = .json ∧ value = .null) := by
  unfold Agree
  cases fieldType with
  | bytes => simpa using bytesWhole value
  | json => simpa using leafByLeaf_json_iff value
  | text => simpa using leafByLeaf_text value
  | _ => simpa using leafByLeaf_of_isScalar rfl value

def plainParsers : Parsers where
  jsonText _ := "null"
  asF64 _ := 0
  dateSecs _ := none
  isDateText _ := false
  ipv6 _ := none
  facet _ := none
  trim text := text

theorem json_null_indexed : unstorableValue plainParsers "meta" .json .null = none ∧ leaves .json .null = [] ∧
    addJsonValueToDoc plainParsers "meta" .json .null .refuse = .ok [.str "null"] ∧
    ¬Agree plainParsers "meta" .json .null := by
  refine ⟨by decide, by decide, by decide, fun hagree => ?_⟩
  exact (leafByLeaf_json_iff .null).mp hagree rfl

end CameoDb
