import CameoDb.Storage.Agreement
import CameoDb.Theorems.Storage.Learned
import Mathlib.Order.Bounds.Basic

/-! # What several nodes' schemas merge to

`widened` is a join, so schemas that agree but for what they learned merge to one schema in whatever order. -/

namespace CameoDb
open List TantivyFieldType FieldDef IndexSchema Std

/-- The types by what they hold; the join is `widened`. -/
instance : SemilatticeSup TantivyFieldType where
  sup := TantivyFieldType.widened
  le a b := a.widened b = b
  le_refl := widened_self
  le_trans a b c hab hbc := by rw [← hbc, ← widened_assoc, hab]
  le_antisymm a b hab hba := by rw [← hba, widened_comm, hab]
  le_sup_left a b := by rw [← widened_assoc, widened_self]
  le_sup_right a b := by rw [widened_comm a, ← widened_assoc, widened_self]
  sup_le a b c hac hbc := by rw [widened_assoc, hbc, hac]

/-! ### One field -/

theorem TantivyFieldType.sup_eq_widened (a b : TantivyFieldType) : a ⊔ b = a.widened b := rfl

namespace FieldDef

/-- What a name stands for once a field of another schema was merged in. -/
def mergedWith (held : Option FieldDef) (field : FieldDef) : Option FieldDef :=
  match held with
  | none => if field.isLearned then some field else none
  | some held =>
    if held.isLearned && field.isLearned && held.fieldType ⊔ field.fieldType ≠ held.fieldType then
      some (held.retypeLearned (held.fieldType ⊔ field.fieldType))
    else some held

@[simp] theorem isLearned_retypeLearned (field : FieldDef) (t : TantivyFieldType) :
    (field.retypeLearned t).isLearned = field.isLearned := rfl

variable {held field : FieldDef}

theorem mergedWith_none_of_learned (h : field.isLearned = true) :
    mergedWith none field = some field := by simp [mergedWith, h]

theorem mergedWith_of_declared (h : field.isLearned = false) (held : Option FieldDef) :
    mergedWith held field = held := by
  cases held <;> simp [mergedWith, h]

theorem mergedWith_declared (h : held.isLearned = false) :
    mergedWith (some held) field = some held := by simp [mergedWith, h]

theorem mergedWith_of_le (h : held.isLearned = true → field.isLearned = true → field.fieldType ≤ held.fieldType) :
    mergedWith (some held) field = some held := by
  by_cases hboth : held.isLearned = true ∧ field.isLearned = true
  · simp [mergedWith, sup_eq_left.mpr (h hboth.1 hboth.2)]
  · simp only [mergedWith]
    rw [if_neg]
    rintro hand
    simp only [Bool.and_eq_true] at hand
    exact hboth hand.1

theorem mergedWith_learned (hheld : held.isLearned = true) (hfield : field.isLearned = true)
    (hself : held.retypeLearned held.fieldType = held) :
    mergedWith (some held) field = some (held.retypeLearned (held.fieldType ⊔ field.fieldType)) := by
  by_cases hle : held.fieldType ⊔ field.fieldType = held.fieldType
  · simp [mergedWith, hle, hself]
  · simp [mergedWith, hheld, hfield, hle]

end FieldDef

/-! ### Whole schemas -/

namespace IndexSchema
variable {into from_ : IndexSchema}

theorem mergeField_eq (into : IndexSchema) (name : String) (field : FieldDef) :
    into.mergeField name field = { into with fields := into.fields.alter name (mergedWith · field) } := by
  unfold mergeField
  cases hname : into.fields[name]? with
  | none =>
    dsimp only
    split
    · next h => rw [alter_eq_insert (by rw [hname]; exact mergedWith_none_of_learned h)]
    · next h =>
      rw [alter_eq_self]
      rw [hname]
      simp [mergedWith, h]
  | some held =>
    dsimp only
    split
    · next hboth =>
      split
      · next hle =>
        rw [alter_eq_self]
        rw [hname]
        exact mergedWith_of_le fun _ _ => sup_eq_left.mp hle
      · next hnot =>
        rw [alter_eq_insert]
        rw [hname]
        simp [mergedWith, hboth, sup_eq_widened, hnot]
    · next hnot =>
      rw [alter_eq_self]
      rw [hname]
      simp [mergedWith, hnot]

theorem foldl_mergeField (entries : List (String × FieldDef)) (into : IndexSchema) :
    ∃ fields, entries.foldl (fun into entry => into.mergeField entry.1 entry.2) into = { into with fields } := by
  induction entries generalizing into with
  | nil => exact ⟨into.fields, rfl⟩
  | cons entry rest ih =>
    rw [foldl_cons, mergeField_eq]
    obtain ⟨fields, h⟩ := ih { into with fields := into.fields.alter entry.1 (mergedWith · entry.2) }
    exact ⟨fields, h⟩

theorem getElem?_foldl_of_notMem {entries : List (String × FieldDef)} {name : String}
    (h : ∀ entry ∈ entries, entry.1 ≠ name) (into : IndexSchema) :
    (entries.foldl (fun into entry => into.mergeField entry.1 entry.2) into).fields[name]? = into.fields[name]? := by
  induction entries generalizing into with
  | nil => rfl
  | cons entry rest ih =>
    have hne : ¬compare entry.1 name = .eq := fun hc => h entry (mem_cons_self ..) (LawfulEqCmp.compare_eq_iff_eq.mp hc)
    rw [foldl_cons, ih (fun other hother => h other (mem_cons_of_mem _ hother)), mergeField_eq]
    dsimp only
    rw [ExtTreeMap.getElem?_alter, if_neg hne]

theorem getElem?_mergeLearned (into from_ : IndexSchema) (name : String) :
    (mergeLearned into from_).fields[name]? =
      (from_.fields[name]?).elim into.fields[name]? (mergedWith into.fields[name]?) := by
  unfold mergeLearned
  cases hfield : from_.fields[name]? with
  | none =>
    refine getElem?_foldl_of_notMem (fun entry hentry heq => ?_) into
    rw [ExtTreeMap.mem_toList_iff_getElem?_eq_some, heq, hfield] at hentry
    cases hentry
  | some field =>
    -- The names of a map are distinct: the entry is merged once, and the rest says nothing of its name.
    obtain ⟨before, after, hlist⟩ := append_of_mem (ExtTreeMap.mem_toList_iff_getElem?_eq_some.mpr hfield)
    have hdistinct := from_.fields.distinct_keys_toList
    rw [hlist] at hdistinct ⊢
    obtain ⟨-, hafter, hbefore⟩ := pairwise_append.mp hdistinct
    rw [foldl_append, foldl_cons, getElem?_foldl_of_notMem, mergeField_eq]
    · dsimp only
      rw [ExtTreeMap.getElem?_alter, if_pos (by simp), getElem?_foldl_of_notMem]
      · rfl
      · intro entry hentry heq
        exact hbefore entry hentry _ (mem_cons_self ..) (by simp [heq])
    · intro entry hentry heq
      exact (pairwise_cons.mp hafter).1 entry hentry (by simp [heq])

theorem mergeLearned_eq (into from_ : IndexSchema) :
    mergeLearned into from_ = { into with fields := (mergeLearned into from_).fields } := by
  obtain ⟨fields, h⟩ := foldl_mergeField from_.fields.toList into
  unfold mergeLearned
  rw [h]

/-- `into` has every learned field of `from_`, as wide or wider. -/
def Absorbs (into from_ : IndexSchema) : Prop :=
  ∀ (name : String) (field : FieldDef), from_.fields[name]? = some field → field.isLearned = true →
    ∃ held, into.fields[name]? = some held ∧ (held.isLearned = true → field.fieldType ≤ held.fieldType)

theorem Absorbs.mergeLearned (h : into.Absorbs from_) : mergeLearned into from_ = into := by
  have hfields : (CameoDb.mergeLearned into from_).fields = into.fields := by
    apply ExtTreeMap.ext_getElem?
    intro name
    rw [getElem?_mergeLearned]
    cases hfield : from_.fields[name]? with
    | none => rfl
    | some field =>
      cases hlearned : field.isLearned with
      | false => exact mergedWith_of_declared hlearned _
      | true =>
        obtain ⟨held, hheld, hle⟩ := h name field hfield hlearned
        rw [hheld]
        exact mergedWith_of_le fun hh _ => hle hh
  rw [mergeLearned_eq, hfields]

theorem absorbs_self (schema : IndexSchema) : schema.Absorbs schema :=
  fun _ field hfield _ => ⟨field, hfield, fun _ => le_rfl⟩

theorem absorbs_mergeLearned (into from_ : IndexSchema) : (mergeLearned into from_).Absorbs from_ := by
  intro name field hfield hlearned
  rw [getElem?_mergeLearned, hfield]
  cases hinto : into.fields[name]? with
  | none => exact ⟨field, mergedWith_none_of_learned hlearned, fun _ => le_rfl⟩
  | some held =>
    by_cases hwiden : held.isLearned && field.isLearned && held.fieldType ⊔ field.fieldType ≠ held.fieldType
    · exact ⟨held.retypeLearned (held.fieldType ⊔ field.fieldType), if_pos hwiden, fun _ => le_sup_right⟩
    · refine ⟨held, if_neg hwiden, fun hheld => ?_⟩
      simp only [hheld, hlearned, Bool.and_true, Bool.true_and, decide_eq_true_eq, not_not] at hwiden
      exact sup_eq_left.mp hwiden

variable {other : IndexSchema}

theorem Absorbs.merge (h : into.Absorbs other) (from_ : IndexSchema) :
    (CameoDb.mergeLearned into from_).Absorbs other := by
  intro name field hfield hlearned
  obtain ⟨held, hheld, hle⟩ := h name field hfield hlearned
  rw [getElem?_mergeLearned, hheld]
  cases hfrom : from_.fields[name]? with
  | none => exact ⟨held, rfl, hle⟩
  | some brought =>
    by_cases hwiden : held.isLearned && brought.isLearned && held.fieldType ⊔ brought.fieldType ≠ held.fieldType
    · exact ⟨held.retypeLearned (held.fieldType ⊔ brought.fieldType), if_pos hwiden, fun hh =>
        (hle hh).trans le_sup_left⟩
    · exact ⟨held, if_neg hwiden, hle⟩

theorem Absorbs.foldl (h : into.Absorbs other) (schemas : List IndexSchema) :
    (schemas.foldl CameoDb.mergeLearned into).Absorbs other := by
  induction schemas generalizing into with
  | nil => exact h
  | cons next rest ih => exact ih (h.merge next)

theorem absorbs_foldl {schemas : List IndexSchema} (h : other ∈ schemas) (into : IndexSchema) :
    (schemas.foldl mergeLearned into).Absorbs other := by
  induction schemas generalizing into with
  | nil => cases h
  | cons next rest ih =>
    rcases mem_cons.mp h with rfl | h
    · exact (absorbs_mergeLearned into other).foldl rest
    · exact ih h _

end IndexSchema

/-! ### The preferred schema -/

theorem preferredSchema_eq_or (fingerprint : IndexSchema → UInt64) (a b : IndexSchema) :
    preferredSchema fingerprint a b = a ∨ preferredSchema fingerprint a b = b := by
  unfold preferredSchema
  split
  · exact .inl rfl
  · split
    · exact .inr rfl
    · split
      · exact .inr rfl
      · exact .inl rfl

variable {fingerprint : IndexSchema → UInt64} {schemas : List IndexSchema}

theorem preferredOf_mem {schema : IndexSchema} (h : preferredOf fingerprint schemas = some schema) :
    schema ∈ schemas := by
  cases schemas with
  | nil => cases h
  | cons first rest =>
    cases h
    induction rest generalizing first with
    | nil => exact mem_cons_self
    | cons next rest ih =>
      have hmem := ih (preferredSchema fingerprint first next)
      rw [foldl_cons]
      rcases mem_cons.mp hmem with heq | hmem
      · rw [heq]
        rcases preferredSchema_eq_or fingerprint first next with h | h <;> rw [h] <;> simp
      · exact mem_cons_of_mem _ (mem_cons_of_mem _ hmem)

theorem preferredOf_eq_none (h : preferredOf fingerprint schemas = none) : schemas = [] := by
  cases schemas with
  | nil => rfl
  | cons first rest => cases h

theorem preferredSchema_version (fingerprint : IndexSchema → UInt64) (a b : IndexSchema) :
    (preferredSchema fingerprint a b).version = max a.version b.version := by
  unfold preferredSchema
  split
  · omega
  · split
    · omega
    · split <;> omega

theorem version_le_preferredOf {schema other : IndexSchema} (h : preferredOf fingerprint schemas = some schema)
    (hother : other ∈ schemas) : other.version ≤ schema.version := by
  cases schemas with
  | nil => cases h
  | cons first rest =>
    cases h
    induction rest generalizing first other with
    | nil =>
      rw [mem_singleton.mp hother]
      exact le_rfl
    | cons next rest ih =>
      have hpair := preferredSchema_version fingerprint first next
      have hkept := ih (preferredSchema fingerprint first next) mem_cons_self
      rw [foldl_cons]
      rcases mem_cons.mp hother with rfl | hother
      · omega
      · rcases mem_cons.mp hother with rfl | hother
        · omega
        · exact ih (preferredSchema fingerprint first next) (mem_cons_of_mem _ hother)

/-! ### Nodes that differ in what they learned -/

/-- Live schemas of one index: they agree on every declared field and on the index, and where two of them learned a
    field its definitions are the same but for the type, and for what a type has as its default. -/
structure LearnedApart (schemas : Set IndexSchema) : Prop where
  live : ∀ a ∈ schemas, a.recordsDrop = false
  alike : ∀ a ∈ schemas, ∀ b ∈ schemas, { a with fields := b.fields, version := b.version } = b
  declared : ∀ a ∈ schemas, ∀ b ∈ schemas, ∀ (name : String) (field : FieldDef), a.fields[name]? = some field →
    field.isLearned = false → b.fields[name]? = some field
  learned : ∀ a ∈ schemas, ∀ b ∈ schemas, ∀ (name : String) (field other : FieldDef), a.fields[name]? = some field →
    b.fields[name]? = some other → field.isLearned = true → field.retypeLearned other.fieldType = other

def typesOf (schemas : Set IndexSchema) (name : String) : Set TantivyFieldType :=
  { t | ∃ a ∈ schemas, ∃ field, a.fields[name]? = some field ∧ field.fieldType = t }

/-- Declared fields as declared, learned ones at their join. -/
structure IsMerge (schemas : Set IndexSchema) (view : IndexSchema) : Prop where
  absent : ∀ name : String, (∀ a ∈ schemas, a.fields[name]? = none) → view.fields[name]? = none
  declared : ∀ a ∈ schemas, ∀ (name : String) (field : FieldDef), a.fields[name]? = some field →
    field.isLearned = false → view.fields[name]? = some field
  learned : ∀ a ∈ schemas, ∀ (name : String) (field : FieldDef), a.fields[name]? = some field → field.isLearned = true →
    ∃ t, IsLUB (typesOf schemas name) t ∧ view.fields[name]? = some (field.retypeLearned t)

section Merge
variable {schemas seen : Set IndexSchema} {view view' next : IndexSchema} {name : String}

theorem typesOf_insert_none (h : next.fields[name]? = none) : typesOf (insert next seen) name = typesOf seen name := by
  ext t
  constructor
  · rintro ⟨a, rfl | ha, field, hfield, ht⟩
    · rw [h] at hfield
      cases hfield
    · exact ⟨a, ha, field, hfield, ht⟩
  · rintro ⟨a, ha, field, hfield, ht⟩
    exact ⟨a, Or.inr ha, field, hfield, ht⟩

theorem typesOf_insert_some {field : FieldDef} (h : next.fields[name]? = some field) :
    typesOf (insert next seen) name = insert field.fieldType (typesOf seen name) := by
  ext t
  constructor
  · rintro ⟨a, rfl | ha, found, hfound, ht⟩
    · rw [h] at hfound
      cases hfound
      exact Or.inl ht.symm
    · exact Or.inr ⟨a, ha, found, hfound, ht⟩
  · rintro (rfl | ⟨a, ha, found, hfound, ht⟩)
    · exact ⟨next, Or.inl rfl, field, h, rfl⟩
    · exact ⟨a, Or.inr ha, found, hfound, ht⟩

variable {a b : IndexSchema} {field other : FieldDef} {list : List IndexSchema} {fingerprint : IndexSchema → UInt64}

theorem LearnedApart.isLearned (h : LearnedApart schemas) (ha : a ∈ schemas) (hb : b ∈ schemas)
    (hfield : a.fields[name]? = some field) (hother : b.fields[name]? = some other)
    (hlearned : field.isLearned = true) : other.isLearned = true := by
  rw [← h.learned a ha b hb name field other hfield hother hlearned, isLearned_retypeLearned]
  exact hlearned

/-- Definitions of a field that was learned differ in nothing once they have the same type. -/
theorem LearnedApart.retype_eq (h : LearnedApart schemas) (ha : a ∈ schemas) (hb : b ∈ schemas)
    (hfield : a.fields[name]? = some field) (hother : b.fields[name]? = some other) (hlearned : field.isLearned = true)
    (t : TantivyFieldType) : field.retypeLearned t = other.retypeLearned t := by
  rw [← h.learned a ha b hb name field other hfield hother hlearned, retypeLearned_retypeLearned]

theorem IsMerge.single (h : LearnedApart schemas) (hview : view ∈ schemas) : IsMerge {view} view := by
  refine ⟨fun name habsent => habsent view rfl, ?_, ?_⟩
  · rintro a rfl name field hfield -
    exact hfield
  · rintro a rfl name field hfield hlearned
    refine ⟨field.fieldType, ?_, ?_⟩
    · have htypes : typesOf {a} name = {field.fieldType} := by
        ext t
        simp [typesOf, hfield, eq_comm]
      rw [htypes]
      exact isLUB_singleton
    · rw [h.learned a hview a hview name field field hfield hfield hlearned]
      exact hfield

theorem IsMerge.merge (h : LearnedApart schemas) (hseen : seen ⊆ schemas) (hsome : seen.Nonempty)
    (hnext : next ∈ schemas) (hm : IsMerge seen view) : IsMerge (insert next seen) (mergeLearned view next) := by
  have hall : insert next seen ⊆ schemas := Set.insert_subset hnext hseen
  refine ⟨fun name habsent => ?_, fun a ha name field hfield hdeclared => ?_, fun a ha name field hfield hlearned => ?_⟩
  · rw [getElem?_mergeLearned, habsent next (Set.mem_insert ..)]
    exact hm.absent name fun b hb => habsent b (Set.mem_insert_of_mem _ hb)
  · obtain ⟨b, hb⟩ := hsome
    have hview : view.fields[name]? = some field :=
      hm.declared b hb name field (h.declared a (hall ha) b (hseen hb) name field hfield hdeclared) hdeclared
    rw [getElem?_mergeLearned, hview]
    cases next.fields[name]? with
    | none => rfl
    | some brought => exact mergedWith_declared hdeclared
  · rw [getElem?_mergeLearned]
    by_cases hold : ∃ b ∈ seen, ∃ other, b.fields[name]? = some other
    · obtain ⟨b, hb, other, hother⟩ := hold
      obtain ⟨t, hlub, hview⟩ :=
        hm.learned b hb name other hother (h.isLearned (hall ha) (hseen hb) hfield hother hlearned)
      rw [← h.retype_eq (hall ha) (hseen hb) hfield hother hlearned] at hview
      rw [hview]
      cases hbrought : next.fields[name]? with
      | none => exact ⟨t, by rwa [typesOf_insert_none hbrought], rfl⟩
      | some brought =>
        have hb' : brought.isLearned = true := h.isLearned (hall ha) hnext hfield hbrought hlearned
        refine ⟨t ⊔ brought.fieldType, ?_, ?_⟩
        · rw [typesOf_insert_some hbrought, sup_comm]
          exact hlub.insert _
        · exact mergedWith_learned hlearned hb' rfl
    · have hview : view.fields[name]? = none := by
        refine hm.absent name fun b hb => ?_
        by_contra hne
        obtain ⟨other, hother⟩ := Option.ne_none_iff_exists'.mp hne
        exact hold ⟨b, hb, other, hother⟩
      obtain rfl : a = next := ha.resolve_right fun hmem => hold ⟨a, hmem, field, hfield⟩
      rw [hview, hfield]
      refine ⟨field.fieldType, ?_, ?_⟩
      · have hnone : typesOf seen name = ∅ := by
          refine Set.eq_empty_iff_forall_notMem.mpr ?_
          rintro t ⟨b, hb, other, hother, -⟩
          exact hold ⟨b, hb, other, hother⟩
        rw [typesOf_insert_some hfield, hnone, insert_empty_eq]
        exact isLUB_singleton
      · rw [h.learned a hnext a hnext name field field hfield hfield hlearned]
        exact mergedWith_none_of_learned hlearned

theorem IsMerge.foldl (h : LearnedApart schemas) {rest : List IndexSchema} (hrest : ∀ a ∈ rest, a ∈ schemas)
    (hseen : seen ⊆ schemas)
    (hsome : seen.Nonempty) (hm : IsMerge seen view) :
    IsMerge (seen ∪ { a | a ∈ rest }) (rest.foldl mergeLearned view) := by
  induction rest generalizing seen view with
  | nil => simpa using hm
  | cons next rest ih =>
    have hnext : next ∈ schemas := hrest next (mem_cons_self ..)
    have hsame : seen ∪ { a | a ∈ next :: rest } = insert next seen ∪ { a | a ∈ rest } := by
      ext a
      simp only [Set.mem_union, Set.mem_ofPred_eq, mem_cons, Set.mem_insert_iff]
      tauto
    rw [hsame]
    exact ih (fun a ha => hrest a (mem_cons_of_mem _ ha)) (Set.insert_subset hnext hseen) (Set.insert_nonempty ..)
      (hm.merge h hseen hsome hnext)

theorem IsMerge.fields_eq (hm : IsMerge schemas view) (hm' : IsMerge schemas view') : view.fields = view'.fields := by
  apply ExtTreeMap.ext_getElem?
  intro name
  by_cases hsome : ∃ a ∈ schemas, ∃ field, a.fields[name]? = some field
  · obtain ⟨a, ha, field, hfield⟩ := hsome
    cases hlearned : field.isLearned with
    | false => rw [hm.declared a ha name field hfield hlearned, hm'.declared a ha name field hfield hlearned]
    | true =>
      obtain ⟨t, hlub, hview⟩ := hm.learned a ha name field hfield hlearned
      obtain ⟨t', hlub', hview'⟩ := hm'.learned a ha name field hfield hlearned
      rw [hview, hview', hlub.unique hlub']
  · have habsent : ∀ a ∈ schemas, a.fields[name]? = none := by
      intro a ha
      by_contra hne
      obtain ⟨field, hfield⟩ := Option.ne_none_iff_exists'.mp hne
      exact hsome ⟨a, ha, field, hfield⟩
    rw [hm.absent name habsent, hm'.absent name habsent]

theorem foldl_mergeLearned_eq (rest : List IndexSchema) (view : IndexSchema) :
    rest.foldl mergeLearned view = { view with fields := (rest.foldl mergeLearned view).fields } := by
  induction rest generalizing view with
  | nil => rfl
  | cons next rest ih =>
    rw [foldl_cons, ih, mergeLearned_eq view next]

theorem mergedView_live (h : mergedView fingerprint list = some view) : view.recordsDrop = false := by
  obtain ⟨best, hbest, rfl⟩ := Option.map_eq_some_iff.mp h
  have hlive : best.recordsDrop = false := by simpa using (mem_filter.mp (preferredOf_mem hbest)).2
  rw [foldl_mergeLearned_eq]
  exact hlive

theorem mergedView_of_forall_eq (hsome : list ≠ []) (hlive : view.recordsDrop = false)
    (h : ∀ schema ∈ list, schema = view) : mergedView fingerprint list = some view := by
  have hheld : (list.filter fun schema => !schema.recordsDrop) = list := by
    refine filter_eq_self.mpr fun schema hschema => ?_
    rw [h schema hschema, hlive]
    rfl
  have hfold : list.foldl mergeLearned view = view := by
    clear hheld hsome
    induction list with
    | nil => rfl
    | cons next rest ih =>
      rw [foldl_cons, h next mem_cons_self, (absorbs_self view).mergeLearned]
      exact ih fun schema hschema => h schema (mem_cons_of_mem _ hschema)
  unfold mergedView
  dsimp only
  rw [hheld]
  cases hbest : preferredOf fingerprint list with
  | none => exact absurd (preferredOf_eq_none hbest) hsome
  | some best =>
    rw [Option.map_some, h best (preferredOf_mem hbest), hfold]

/-! ### In any order -/

/-- Any order gives `view`, and merging again changes nothing. -/
structure MergesTo (fingerprint : IndexSchema → UInt64) (schemas : Set IndexSchema) (view : IndexSchema) : Prop where
  anyOrder : ∀ list : List IndexSchema, (∀ schema, schema ∈ list ↔ schema ∈ schemas) →
    mergedView fingerprint list = some view
  merge : IsMerge schemas view
  again : ∀ schema ∈ insert view schemas, mergeLearned view schema = view

theorem LearnedApart.mergedView (h : LearnedApart schemas) (hlist : ∀ schema, schema ∈ list ↔ schema ∈ schemas)
    (hsome : schemas.Nonempty) (fingerprint : IndexSchema → UInt64) :
    ∃ best ∈ schemas, (∀ schema ∈ schemas, schema.version ≤ best.version) ∧
      IsMerge schemas (list.foldl mergeLearned best) ∧
      CameoDb.mergedView fingerprint list = some (list.foldl mergeLearned best) := by
  have hlive : (list.filter fun schema => !schema.recordsDrop) = list := by
    refine filter_eq_self.mpr fun schema hschema => ?_
    rw [h.live schema ((hlist schema).mp hschema)]
    rfl
  cases hbest : preferredOf fingerprint list with
  | none =>
    obtain ⟨schema, hschema⟩ := hsome
    have hmem := (hlist schema).mpr hschema
    rw [preferredOf_eq_none hbest] at hmem
    cases hmem
  | some best =>
    have hmem : best ∈ schemas := (hlist best).mp (preferredOf_mem hbest)
    refine ⟨best, hmem, fun schema hschema => version_le_preferredOf hbest ((hlist schema).mpr hschema), ?_, ?_⟩
    · have hall : schemas = {best} ∪ { a | a ∈ list } := by
        ext schema
        simp only [Set.singleton_union, Set.mem_insert_iff, Set.mem_ofPred_eq, hlist schema]
        constructor
        · exact .inr
        · rintro (rfl | hschema)
          · exact hmem
          · exact hschema
      have hmerge := (IsMerge.single h hmem).foldl h (fun a ha => (hlist a).mp ha) (Set.singleton_subset_iff.mpr hmem)
        (Set.singleton_nonempty best)
      rwa [← hall] at hmerge
    · unfold CameoDb.mergedView
      dsimp only
      rw [hlive, hbest]
      rfl

theorem LearnedApart.mergesTo (h : LearnedApart schemas) (hsome : schemas.Nonempty)
    (hlist : ∀ schema, schema ∈ list ↔ schema ∈ schemas) (fingerprint : IndexSchema → UInt64) :
    ∃ view, MergesTo fingerprint schemas view := by
  obtain ⟨best, hbest, hnewest, hmerge, -⟩ := h.mergedView hlist hsome fingerprint
  refine ⟨list.foldl mergeLearned best, fun other hother => ?_, hmerge, ?_⟩
  · obtain ⟨best', hbest', hnewest', hmerge', hfound'⟩ := h.mergedView hother hsome fingerprint
    have hversion : best'.version = best.version := Nat.le_antisymm (hnewest best' hbest') (hnewest' best hbest)
    have halike := h.alike best' hbest' best hbest
    rw [hfound', foldl_mergeLearned_eq other, foldl_mergeLearned_eq list, hmerge'.fields_eq hmerge, ← halike]
    rw [← hversion]
  · rintro schema (rfl | hschema)
    · exact (absorbs_self _).mergeLearned
    · exact (absorbs_foldl ((hlist schema).mpr hschema) best).mergeLearned

end Merge

end CameoDb
