import CameoDb.Storage.Store
import CameoDb.Lib.Updates

/-! # What a schema learns

Types are joined, so what a schema learns does not depend on the order, and a value seen twice teaches nothing more. -/

namespace CameoDb
open List FieldDef IndexSchema Std Updates

/-! ### The join of types -/

namespace TantivyFieldType

theorem widened_self (a : TantivyFieldType) : a.widened a = a := if_pos rfl

theorem widened_comm (a b : TantivyFieldType) : a.widened b = b.widened a := by
  unfold widened
  by_cases h : a = b
  · rw [h]
  · rw [if_neg h, if_neg (Ne.symm h), Bool.and_comm]

theorem widened_assoc (a b c : TantivyFieldType) : (a.widened b).widened c = a.widened (b.widened c) := by
  unfold widened
  grind [isNumeric]

theorem widened_right_comm (a b c : TantivyFieldType) : (a.widened b).widened c = (a.widened c).widened b := by
  rw [widened_assoc, widened_comm b, widened_assoc]

theorem widened_eq_of_widened {a b c : TantivyFieldType} (h : (a.widened b).widened c = a) : a.widened b = a :=
  calc a.widened b = ((a.widened b).widened c).widened b := by rw [h]
    _ = (a.widened (b.widened b)).widened c := by rw [widened_right_comm, widened_assoc a b b]
    _ = a := by rw [widened_self, h]

end TantivyFieldType

/-! ### One field -/

namespace FieldDef

def learns (field : FieldDef) : Bool := !(field.isShadow || field.isGhost) && !field.indexed && field.learned

theorem ite_learns {α : Type} (field : FieldDef) (a b : α) :
    (if field.isShadow || field.isGhost then a else if field.indexed then a else if !field.learned then a else b) =
      if field.learns then b else a := by
  unfold learns
  cases field.isShadow || field.isGhost <;> cases field.indexed <;> cases field.learned <;> rfl

def taught (field : FieldDef) (t : TantivyFieldType) : FieldDef :=
  if field.learns && field.fieldType.widened t ≠ field.fieldType then field.retypeLearned (field.fieldType.widened t)
  else field

variable {field : FieldDef} {a b : TantivyFieldType}

theorem taught_of_learns (h : field.learns = true) :
    field.taught a =
      if field.fieldType.widened a = field.fieldType then field
      else field.retypeLearned (field.fieldType.widened a) := by
  simp [taught, h]

theorem taught_of_not (h : field.learns = false) : field.taught a = field := by simp [taught, h]

@[simp] theorem learns_retypeLearned (t : TantivyFieldType) : (field.retypeLearned t).learns = field.learns := rfl

@[simp] theorem fieldType_retypeLearned (t : TantivyFieldType) : (field.retypeLearned t).fieldType = t := rfl

@[simp] theorem retypeLearned_retypeLearned (t u : TantivyFieldType) :
    (field.retypeLearned t).retypeLearned u = field.retypeLearned u := rfl

theorem taught_taught (field : FieldDef) (a b : TantivyFieldType) :
    (field.taught a).taught b = field.taught (a.widened b) := by
  cases h : field.learns with
  | false => rw [taught_of_not h, taught_of_not h, taught_of_not h]
  | true =>
    rw [taught_of_learns h, taught_of_learns h, ← TantivyFieldType.widened_assoc]
    by_cases ha : field.fieldType.widened a = field.fieldType
    · rw [if_pos ha, ha, taught_of_learns h]
    · -- A type that has gone up does not come back.
      have hab : (field.fieldType.widened a).widened b ≠ field.fieldType := fun hab =>
        ha (TantivyFieldType.widened_eq_of_widened hab)
      rw [if_neg ha, if_neg hab, taught_of_learns (by rw [learns_retypeLearned, h]), fieldType_retypeLearned]
      split
      · next hb => rw [hb]
      · rw [retypeLearned_retypeLearned]

theorem taught_newLearned (name : String) (a b : TantivyFieldType) :
    (newLearned name a).taught b = newLearned name (a.widened b) := by
  rw [taught_of_learns rfl]
  show (if a.widened b = a then newLearned name a else newLearned name (a.widened b)) = _
  split
  · next h => rw [h]
  · rfl

/-- What a name of a schema stands for after a value of type `t` was written under it. -/
def learn (name : String) (t : TantivyFieldType) (held : Option FieldDef) : Option FieldDef :=
  if name = "id" then held else some (held.elim (newLearned name t) (taught · t))

theorem learn_learn (name : String) (a b : TantivyFieldType) (held : Option FieldDef) :
    learn name b (learn name a held) = learn name (a.widened b) held := by
  unfold learn
  split
  · rfl
  · cases held with
    | none => exact congrArg some (taught_newLearned name a b)
    | some field => exact congrArg some (field.taught_taught a b)

end FieldDef

/-! ### The whole schema -/

section Maps
variable {β : Type} {m : ExtTreeMap String β} {k : String} {f : Option β → Option β}

theorem alter_eq_self (h : f m[k]? = m[k]?) : m.alter k f = m := by
  apply ExtTreeMap.ext_getElem?
  intro j
  rw [ExtTreeMap.getElem?_alter]
  split
  · next hj => rw [h, LawfulEqCmp.compare_eq_iff_eq.mp hj]
  · rfl

theorem alter_eq_insert {v : β} (h : f m[k]? = some v) : m.alter k f = m.insert k v := by
  apply ExtTreeMap.ext_getElem?
  intro j
  rw [ExtTreeMap.getElem?_alter, ExtTreeMap.getElem?_insert, h]

end Maps

namespace IndexSchema
variable {p : Parsers} {schema : IndexSchema}

def teach (p : Parsers) (schema : IndexSchema) (member : String × JsonValue) : IndexSchema :=
  { schema with
    fields := schema.fields.alter member.1 (learn member.1 (inferTypeFromValue p member.2)) }

theorem evolveField_eq (p : Parsers) (schema : IndexSchema) (name : String) (value : JsonValue) :
    schema.evolveField p name value =
      (schema.teach p (name, value),
        decide (learn name (inferTypeFromValue p value) schema.fields[name]? ≠ schema.fields[name]?)) := by
  unfold evolveField teach
  generalize inferTypeFromValue p value = t
  dsimp only
  have same : learn name t schema.fields[name]? = schema.fields[name]? →
      (schema, false) = ({ schema with fields := schema.fields.alter name (learn name t) },
        decide (learn name t schema.fields[name]? ≠ schema.fields[name]?)) := by
    intro h
    rw [alter_eq_self h, decide_eq_false (not_not.mpr h)]
  have changed : ∀ field, learn name t schema.fields[name]? = some field → schema.fields[name]? ≠ some field →
      ({ schema with fields := schema.fields.insert name field }, true) =
        ({ schema with fields := schema.fields.alter name (learn name t) },
          decide (learn name t schema.fields[name]? ≠ schema.fields[name]?)) := by
    intro field h hne
    rw [alter_eq_insert h, decide_eq_true (h ▸ hne.symm)]
  split
  · next hid => exact same (if_pos hid)
  · next hid =>
    split
    · next hnone => exact changed _ (by rw [learn, if_neg hid, hnone]; rfl) (by rw [hnone]; nofun)
    · next field hsome =>
      have hlearn : learn name t schema.fields[name]? = some (field.taught t) := by
        rw [learn, if_neg hid, hsome]
        rfl
      rw [ite_learns]
      split
      · next hl =>
        split
        · next hw => exact same (by rw [hlearn, taught_of_learns hl, if_pos hw, hsome])
        · next hw =>
          refine changed _ (by rw [hlearn, taught_of_learns hl, if_neg hw]) fun hc => hw ?_
          rw [hsome, Option.some.injEq] at hc
          exact (congrArg fieldType hc).symm
      · next hl => exact same (by rw [hlearn, taught_of_not (by simpa using hl), hsome])

theorem teach_eq_self_iff {member : String × JsonValue} :
    schema.teach p member = schema ↔
      learn member.1 (inferTypeFromValue p member.2) schema.fields[member.1]? = schema.fields[member.1]? := by
  constructor
  · intro h
    have := congrArg (fun c : IndexSchema => c.fields[member.1]?) h
    simpa only [teach, ExtTreeMap.getElem?_alter_self] using this
  · intro h
    rw [teach, alter_eq_self h]

theorem absorbing_teach (p : Parsers) : Absorbing (teach p) where
  comm schema a b := by
    unfold teach
    dsimp only
    congr 1
    apply ExtTreeMap.ext_getElem?
    intro k
    simp only [ExtTreeMap.getElem?_alter, Std.compare_eq_iff_eq]
    by_cases hab : a.1 = b.1
    · rw [hab]
      by_cases hk : b.1 = k
      · simp [hk, learn_learn, TantivyFieldType.widened_comm]
      · simp [hk]
    · by_cases hb : b.1 = k
      · have ha : a.1 ≠ k := hb ▸ hab
        simp [hb, ha]
      · by_cases ha : a.1 = k <;> simp [ha, hb]
  idem schema a := by
    refine teach_eq_self_iff.mpr ?_
    simp only [teach, ExtTreeMap.getElem?_alter_self]
    rw [learn_learn, TantivyFieldType.widened_self]

theorem evolveMembers_fst (p : Parsers) (schema : IndexSchema) (members : List (String × JsonValue)) :
    (schema.evolveMembers p members).1 = members.foldl (teach p) schema := by
  induction members generalizing schema with
  | nil => rfl
  | cons member rest ih =>
    simp only [evolveMembers, evolveField_eq, foldl_cons]
    exact ih _

theorem evolveMembers_snd (p : Parsers) (schema : IndexSchema) (members : List (String × JsonValue)) :
    (schema.evolveMembers p members).2 = [] ↔ (schema.evolveMembers p members).1 = schema := by
  rw [evolveMembers_fst]
  induction members generalizing schema with
  | nil => simp [evolveMembers]
  | cons member rest ih =>
    rw [(absorbing_teach p).foldl_eq_self_iff, forall_mem_cons, ← (absorbing_teach p).foldl_eq_self_iff]
    simp only [evolveMembers, evolveField_eq]
    by_cases h : schema.teach p member = schema
    · rw [if_neg (by simpa using teach_eq_self_iff.mp h), ih, h]
      exact ⟨fun hrest => ⟨rfl, hrest⟩, And.right⟩
    · rw [if_pos (by simpa using mt teach_eq_self_iff.mpr h)]
      exact ⟨fun hnil => absurd hnil (cons_ne_nil _ _), fun hc => absurd hc.1 h⟩

end IndexSchema

/-! ### A batch -/

/-- The members of the body an operation writes. -/
def WalOp.members : WalOp → List (String × JsonValue)
  | .put _ (some blob) => blob.asObject.getD []
  | _ => []

/-- The schema after the values of every body of a batch. -/
def IndexSchema.taughtBy (p : Parsers) (schema : IndexSchema) (ops : List WalOp) : IndexSchema :=
  (ops.flatMap WalOp.members).foldl (teach p) schema

section Batch
variable {env : Env} {schema : IndexSchema} {ops : List WalOp}

theorem IndexSchema.taughtBy_append (p : Parsers) (schema : IndexSchema) (first second : List WalOp) :
    schema.taughtBy p (first ++ second) = (schema.taughtBy p first).taughtBy p second := by
  rw [taughtBy, flatMap_append, foldl_append, taughtBy, taughtBy]

theorem IndexSchema.taughtBy_perm (p : Parsers) (schema : IndexSchema) {ops ops' : List WalOp} (h : ops.Perm ops') :
    schema.taughtBy p ops = schema.taughtBy p ops' :=
  (absorbing_teach p).foldl_perm (h.flatMap_right _) schema

theorem evolveFromDocument_eq (p : Parsers) (schema : IndexSchema) (blob : JsonValue) :
    schema.evolveFromDocument p blob = schema.evolveMembers p (blob.asObject.getD []) := by
  unfold evolveFromDocument
  cases blob.asObject <;> rfl

theorem evolveBatch_fst (env : Env) (schema : IndexSchema) (ops : List WalOp) :
    (evolveBatch env schema ops).1 = schema.taughtBy env.parsers ops := by
  induction ops generalizing schema with
  | nil => rfl
  | cons op rest ih =>
    rw [show op :: rest = [op] ++ rest from rfl, taughtBy_append]
    rcases op with ⟨id, _ | blob⟩ | id
    · exact ih schema
    · simp only [evolveBatch, singleton_append, evolveFromDocument_eq]
      rw [ih, evolveMembers_fst]
      simp [taughtBy, WalOp.members]
    · exact ih schema

theorem evolveBatch_snd (env : Env) (schema : IndexSchema) (ops : List WalOp) :
    (evolveBatch env schema ops).2 = [] ↔ schema.taughtBy env.parsers ops = schema := by
  induction ops generalizing schema with
  | nil => simp [evolveBatch, taughtBy]
  | cons op rest ih =>
    rcases op with ⟨id, _ | blob⟩ | id
    · exact ih schema
    · have habs := absorbing_teach env.parsers
      simp only [evolveBatch, evolveFromDocument_eq, append_eq_nil_iff]
      rw [taughtBy, flatMap_cons, habs.foldl_eq_self_iff, forall_mem_append, ← habs.foldl_eq_self_iff,
        ← habs.foldl_eq_self_iff, evolveMembers_snd, ih, evolveMembers_fst]
      show (WalOp.members (.put id (some blob))).foldl _ schema = schema ∧ _ ↔ _
      refine and_congr_right fun h => ?_
      rw [show (blob.asObject.getD []).foldl (teach env.parsers) schema = schema from h]
      rfl
    · exact ih schema

end Batch

end CameoDb
