import CameoDb.Node.Routing

/-! # A delete and the writes before it

A delete goes to the shard of the id, a write to that of its routing field or the caller's key: the same only if
these spell the id. -/

namespace CameoDb
open ShardRows

variable {p : NodeParsers} {schema : IndexSchema} {id : String} {routingKey : Option String} {body : JsonValue}

/-- The routing field is the document's key. -/
def IndexSchema.RoutesByKey (schema : IndexSchema) : Prop :=
  schema.getRoutingField = "id" ∨ schema.isShadowField schema.getRoutingField = true

def WriteAccepted (p : NodeParsers) (schema : IndexSchema) (id : String) (body : JsonValue) : Prop :=
  (validateDocument p id body schema).validationError = none

/-- What routes the write is the id, as the delete will spell it. -/
def SpellsId (p : NodeParsers) (schema : IndexSchema) (id : String) (routingKey : Option String) (body : JsonValue) :
    Prop :=
  match body.asObject.bind (JsonValue.member? · schema.getRoutingField) with
  | none => routingKey = none ∨ routingKey = some id
  | some (.number n) => p.jsonText (.number n) = id
  | some _ => True

/-! ### What the check says of the routing field -/

theorem unusableDocumentIdentity_of_accepted (h : WriteAccepted p schema id body) :
    unusableDocumentIdentity p id body = none := by
  unfold WriteAccepted validateDocument at h
  cases hid : unusableDocumentIdentity p id body with
  | none => rfl
  | some why => simp [hid] at h

theorem disagreeingShadowField_of_accepted (h : WriteAccepted p schema id body) :
    disagreeingShadowField p body schema id = none := by
  have hid := unusableDocumentIdentity_of_accepted h
  unfold WriteAccepted validateDocument at h
  cases hshadow : disagreeingShadowField p body schema id with
  | none => rfl
  | some why => simp [hid, hshadow] at h

theorem ne_empty_of_accepted (h : WriteAccepted p schema id body) : id ≠ "" := by
  have hid := unusableDocumentIdentity_of_accepted h
  rintro rfl
  unfold unusableDocumentIdentity at hid
  cases hobject : body.asObject <;> simp [hobject] at hid

theorem exists_field_of_isShadowField {name : String} (h : schema.isShadowField name = true) :
    ∃ field, (name, field) ∈ schema.fields.toList ∧ field.isShadow = true := by
  unfold IndexSchema.isShadowField at h
  split at h
  · next field hfield => exact ⟨field, Std.ExtTreeMap.mem_toList_iff_getElem?_eq_some.mpr hfield, h⟩
  · cases h

theorem namesIdentifier_of_accepted (hkey : schema.RoutesByKey) (h : WriteAccepted p schema id body) {value : JsonValue}
    (hvalue : body.asObject.bind (JsonValue.member? · schema.getRoutingField) = some value) :
    namesIdentifier p value id = true := by
  obtain ⟨members, hmembers, hmember⟩ := Option.bind_eq_some_iff.mp hvalue
  rcases hkey with hfield | hshadow
  · have hid := unusableDocumentIdentity_of_accepted h
    rw [hfield] at hmember
    simpa [unusableDocumentIdentity, hmembers, ne_empty_of_accepted h, hmember] using hid
  · have hnames := disagreeingShadowField_of_accepted h
    obtain ⟨field, hfield, hshadow⟩ := exists_field_of_isShadowField hshadow
    have hhas : schema.hasShadowFields = true := List.any_eq_true.mpr ⟨_, hfield, hshadow⟩
    have hname : schema.getRoutingField ∈ schema.shadowNames :=
      List.mem_map.mpr ⟨_, List.mem_filter.mpr ⟨hfield, hshadow⟩, rfl⟩
    have hall : ∀ name ∈ schema.shadowNames, ∀ value, JsonValue.member? members name = some value →
        namesIdentifier p value id = true := by
      simpa [disagreeingShadowField, hhas, hmembers] using hnames
    exact hall _ hname _ hmember

/-! ### The two keys -/

theorem effectiveDeleteRoutingKey_eq (hkey : schema.RoutesByKey) :
    effectiveDeleteRoutingKey schema id routingKey = .ok id := by
  unfold effectiveDeleteRoutingKey
  rw [if_pos]
  simpa [IndexSchema.RoutesByKey] using hkey

theorem effectiveRoutingKey_of_accepted (hkey : schema.RoutesByKey) (h : WriteAccepted p schema id body)
    (routingKey : Option String) : ∃ key, effectiveRoutingKey p.toParsers schema id routingKey body = some key ∧
      (key = id ↔ SpellsId p schema id routingKey body) := by
  have hid := ne_empty_of_accepted h
  unfold effectiveRoutingKey routingKeyFor extractRoutingValue SpellsId
  cases hvalue : body.asObject.bind (JsonValue.member? · schema.getRoutingField) with
  | none =>
    refine ⟨routingKey.getD id, ?_, ?_⟩
    · cases routingKey <;> simp [routingKeyWithoutSchema, hid]
    · cases routingKey <;> simp
  | some value =>
    have hnames := namesIdentifier_of_accepted hkey h hvalue
    cases value with
    | string text => exact ⟨text, rfl, iff_of_true (by simpa [namesIdentifier] using hnames) trivial⟩
    | number n => exact ⟨p.jsonText (.number n), rfl, Iff.rfl⟩
    | _ => cases hnames

/-! ### Rings -/

def apartRing (key : String) : ShardRing where
  hashKey k := if k = key then 0 else 1
  ring := ((∅ : HashRing UInt64 ShardId).addNode 0 [0]).addNode 1 [1]
  shards := [0, 1]

theorem routeWrite_apartRing (key other : String) :
    (apartRing key).routeWrite (some other) = .ok (if other = key then 0 else 1) := by
  have hzero : (((∅ : HashRing UInt64 ShardId).addNode 0 [0]).addNode 1 [1]).owner 0 = some 0 := by decide
  have hone : (((∅ : HashRing UInt64 ShardId).addNode 0 [0]).addNode 1 [1]).owner 1 = some 1 := by decide
  by_cases h : other = key
  · simp [ShardRing.routeWrite, apartRing, h, hzero]
  · simp [ShardRing.routeWrite, apartRing, h, hone]

theorem eq_of_forall_routeWrite_eq {key other : String}
    (h : ∀ r : ShardRing, r.routeWrite (some key) = r.routeWrite (some other)) : key = other := by
  have hroute := h (apartRing other)
  rw [routeWrite_apartRing, routeWrite_apartRing, if_pos rfl] at hroute
  by_contra hne
  rw [if_neg hne] at hroute
  cases hroute

/-! ### Runs of writes and deletes -/

def RowOp.SpellsId (p : NodeParsers) (schema : IndexSchema) : RowOp → Prop
  | .write id routingKey body => CameoDb.SpellsId p schema id routingKey body
  | .delete _ _ => True

/-- Every row is on the shard its id routes to. -/
def ShardRows.AtHome (r : ShardRing) (rows : ShardRows) : Prop :=
  ∀ shard id, rows shard id ≠ none → r.routeWrite (some id) = .ok shard

variable {r : ShardRing} {rows : ShardRows} {ops : List RowOp}

theorem ShardRows.AtHome.place (h : rows.AtHome r) (id : String) (row : Option JsonValue) :
    (rows.place r (some id) id row).AtHome r := by
  unfold ShardRows.place
  split
  · exact h
  · next shard hshard =>
    intro s i hrow
    unfold set at hrow
    split at hrow
    · next heq => rw [heq.1, heq.2, hshard]
    · exact h s i hrow

theorem ShardRows.AtHome.apply (hkey : schema.RoutesByKey) (h : rows.AtHome r) {op : RowOp}
    (hop : op.SpellsId p schema) : (rows.apply p schema r op).AtHome r := by
  cases op with
  | write id routingKey body =>
    cases hvalid : (validateDocument p id body schema).validationError with
    | some why => simpa only [ShardRows.apply, hvalid] using h
    | none =>
      obtain ⟨key, heq, hspells⟩ := effectiveRoutingKey_of_accepted hkey hvalid routingKey
      rw [hspells.mpr hop] at heq
      simp only [ShardRows.apply, hvalid, heq]
      exact h.place id _
  | delete id routingKey =>
    simp only [ShardRows.apply, effectiveDeleteRoutingKey_eq hkey]
    exact h.place id none

theorem ShardRows.AtHome.foldl (hkey : schema.RoutesByKey) (hops : ∀ op ∈ ops, op.SpellsId p schema)
    (h : rows.AtHome r) : (ops.foldl (ShardRows.apply p schema r) rows).AtHome r := by
  induction ops generalizing rows with
  | nil => exact h
  | cons op ops ih =>
    rw [List.forall_mem_cons] at hops
    exact ih hops.2 (h.apply hkey hops.1)

theorem ShardRows.atHome_after (r : ShardRing) (hkey : schema.RoutesByKey) (hops : ∀ op ∈ ops, op.SpellsId p schema) :
    (after p schema r ops).AtHome r :=
  ShardRows.AtHome.foldl hkey hops fun _ _ h => absurd rfl h

theorem ShardRows.AtHome.delete (p : NodeParsers) (hkey : schema.RoutesByKey) (h : rows.AtHome r) (id : String)
    (routingKey : Option String) (shard : ShardId) : rows.apply p schema r (.delete id routingKey) shard id = none := by
  simp only [ShardRows.apply, effectiveDeleteRoutingKey_eq hkey]
  -- A row that is still there is at home, and that is where the delete went.
  by_contra hrow
  have hhome := h.place id none shard id hrow
  simp [ShardRows.place, set, hhome] at hrow

/-- On an index that routes by the document key: an accepted write goes where a delete of its id goes, whatever the
    ring, exactly if it spells its id. In a run whose writes all do, no id is on two shards, and a delete leaves
    none of its id. -/
theorem delete_follows_write_iff (p : NodeParsers) (schema : IndexSchema) (hkey : schema.RoutesByKey) :
    (∀ id routingKey body, WriteAccepted p schema id body →
      ((∀ r : ShardRing, r.routeWrite (effectiveRoutingKey p.toParsers schema id routingKey body) =
          (effectiveDeleteRoutingKey schema id routingKey).bind fun key => r.routeWrite (some key)) ↔
        SpellsId p schema id routingKey body)) ∧
      ∀ (r : ShardRing) (ops : List RowOp), (∀ op ∈ ops, op.SpellsId p schema) →
        (∀ id s t, after p schema r ops s id ≠ none → after p schema r ops t id ≠ none → s = t) ∧
        ∀ id routingKey s, after p schema r (ops ++ [.delete id routingKey]) s id = none := by
  refine ⟨fun id routingKey body haccepted => ?_, fun r ops hops => ⟨fun id s t hs ht => ?_, fun id routingKey s => ?_⟩⟩
  · obtain ⟨key, heq, hspells⟩ := effectiveRoutingKey_of_accepted hkey haccepted routingKey
    rw [heq, effectiveDeleteRoutingKey_eq hkey, ← hspells]
    constructor
    · intro hsame
      exact eq_of_forall_routeWrite_eq hsame
    · rintro rfl r
      rfl
  · have hhome := atHome_after r hkey hops
    exact Except.ok.inj ((hhome s id hs).symm.trans (hhome t id ht))
  · rw [after, List.foldl_append]
    exact (atHome_after r hkey hops).delete p hkey id routingKey s

def wordParsers : NodeParsers where
  jsonText _ := ""
  asF64 _ := 0
  dateSecs _ := none
  isDateText _ := false
  ipv6 _ := none
  facet _ := none
  trim text := text
  number _ := none

theorem delete_follows_write_iff_default :
    IndexSchema.default.RoutesByKey ∧
      after wordParsers .default (apartRing "a")
      [.write "a" none (.object []), .delete "a" (some "k")] 0 "a" = none := by
  have hkey : IndexSchema.default.RoutesByKey := .inl (by decide)
  refine ⟨hkey, ?_⟩
  exact ((delete_follows_write_iff wordParsers .default hkey).2 (apartRing "a") [.write "a" none (.object [])] (by
    simp [RowOp.SpellsId, SpellsId, JsonValue.asObject, JsonValue.member?])).2 "a" (some "k") 0

def keyedWrite : RowOp := .write "a" (some "k") (.object [])

/-- It is accepted and goes to the shard of the key. A delete of the id, with the same key, goes to the shard of the
    id and the row stays; a later write without the key goes there too, beside the first. -/
theorem keyed_write_survives_delete :
    WriteAccepted wordParsers .default "a" (.object []) ∧
      (after wordParsers .default (apartRing "a") [keyedWrite, .delete "a" (some "k")] 1 "a").isSome ∧
      (after wordParsers .default (apartRing "a") [keyedWrite, .write "a" none (.object [])] 0 "a").isSome ∧
      (after wordParsers .default (apartRing "a") [keyedWrite, .write "a" none (.object [])] 1 "a").isSome := by
  refine ⟨?_, by decide, by decide, by decide⟩
  unfold WriteAccepted
  decide

end CameoDb
