import CameoDb.Node.Mint
import CameoDb.Theorems.Storage.Merged

/-! # What a canvass comes to, and what a node then does

One lemma for each handler of a first write, and the inversion of one event: every result about runs of first writes is
put together from these. -/

namespace CameoDb
open List Option NodeState IndexSchema Std

/-! ### Schemas -/

section Schemas
variable {schema : IndexSchema}

theorem IndexSchema.isLive_iff : schema.isLive = true ↔ schema.fields ≠ ∅ ∧ schema.recordsDrop = false := by
  simp [isLive]

theorem IndexSchema.recordsDrop_of_isLive (h : schema.isLive = true) : schema.recordsDrop = false :=
  (isLive_iff.mp h).2

theorem IndexSchema.droppedBy_eq_false {droppedAt : Nat} (h : schema.recordsDrop = false) :
    schema.droppedBy droppedAt = false ↔ droppedAt < schema.version := by
  simp [droppedBy, h]

theorem insert_ne_empty {V : Type} (fields : ExtTreeMap String V) (name : String) (field : V) :
    fields.insert name field ≠ ∅ := by
  intro h
  have hmem : name ∈ fields.insert name field := ExtTreeMap.mem_insert_self
  rw [h] at hmem
  exact ExtTreeMap.not_mem_empty hmem

theorem addWanted_spec (initial : Bool) (schema : IndexSchema) (name : String) (fieldType : TantivyFieldType) :
    (schema.addWanted initial name fieldType).version = schema.version ∧
      (schema.addWanted initial name fieldType).state = schema.state ∧
      (schema.fields ≠ ∅ → (schema.addWanted initial name fieldType).fields ≠ ∅) := by
  unfold addWanted
  grind [insert_ne_empty]

theorem evolveSequential_spec (initial : Bool) (newFields : List (String × TantivyFieldType)) (schema : IndexSchema) :
    (evolveSequential initial newFields schema).version = schema.version ∧
      (evolveSequential initial newFields schema).state = schema.state ∧
      (schema.fields ≠ ∅ → (evolveSequential initial newFields schema).fields ≠ ∅) := by
  unfold evolveSequential
  induction (wantedFields newFields).toList generalizing schema with
  | nil => exact ⟨rfl, rfl, id⟩
  | cons entry rest ih =>
    obtain ⟨hversion, hstate, hfields⟩ := addWanted_spec initial schema entry.1 entry.2
    obtain ⟨hversion', hstate', hfields'⟩ := ih (schema.addWanted initial entry.1 entry.2)
    exact ⟨hversion'.trans hversion, hstate'.trans hstate, fun h => hfields' (hfields h)⟩

theorem evolveSequential_isLive {initial : Bool} {newFields : List (String × TantivyFieldType)}
    (h : schema.isLive = true) : (evolveSequential initial newFields schema).isLive = true := by
  obtain ⟨-, hstate, hfields⟩ := evolveSequential_spec initial newFields schema
  rw [isLive_iff] at h ⊢
  refine ⟨hfields h.1, ?_⟩
  rw [recordsDrop, hstate]
  exact h.2

theorem normalizeAfterDeserialization_isLive (p : Parsers) :
    (schema.normalizeAfterDeserialization p).isLive = schema.isLive := by
  rw [Bool.eq_iff_iff, isLive_iff, isLive_iff]
  simp [normalizeAfterDeserialization, recordsDrop]

theorem mintedSchema_isLive (current : IndexSchema) (droppedAt : Nat) :
    (mintedSchema current droppedAt).isLive = true := by
  rw [isLive_iff]
  refine ⟨fun h => ?_, rfl⟩
  have hmem : "id" ∈ (mintedSchema current droppedAt).fields := by simp [mintedSchema]
  rw [h] at hmem
  exact ExtTreeMap.not_mem_empty hmem

theorem mintedSchema_version (current : IndexSchema) (droppedAt : Nat) :
    (mintedSchema current droppedAt).version =
      if 0 < max (dropRecordVersion (some current)) droppedAt then
        nextVersion (max (dropRecordVersion (some current)) droppedAt)
      else current.version := rfl

end Schemas

/-! ### Counting drops -/

section Count
variable {env : ClusterEnv} {droppedHere : Nat} {answers : List (NodeId × PeerAnswer)}

theorem le_foldl_max (xs : List Nat) (start : Nat) : start ≤ xs.foldl max start ∧ ∀ x ∈ xs, x ≤ xs.foldl max start := by
  induction xs generalizing start with
  | nil => exact ⟨le_rfl, by simp⟩
  | cons x rest ih =>
    obtain ⟨hstart, hrest⟩ := ih (max start x)
    refine ⟨(Nat.le_max_left _ _).trans hstart, fun y hy => ?_⟩
    rcases mem_cons.mp hy with rfl | hy
    · exact (Nat.le_max_right _ _).trans hstart
    · exact hrest y hy

variable {node : NodeId} {schema : IndexSchema}

theorem heardSchemas_cases (h : (node, schema) ∈ heardSchemas env answers) :
    ∃ sent, (node, .answered (some sent)) ∈ answers ∧ sent.isLive = true ∧
      schema = sent.normalizeAfterDeserialization env.parsers := by
  obtain ⟨⟨peer, answer⟩, hmem, hheld⟩ := mem_filterMap.mp h
  rcases answer with (_ | sent) | _ | _ <;> grind [heldSchema, map_eq_some_iff]

theorem heardSchemas_isLive (h : (node, schema) ∈ heardSchemas env answers) : schema.isLive = true := by
  obtain ⟨sent, -, hlive, rfl⟩ := heardSchemas_cases h
  rw [normalizeAfterDeserialization_isLive]
  exact hlive

theorem countCanvass_droppedAt :
    (countCanvass env droppedHere answers).droppedAt = (heardDrops answers).foldl max droppedHere := by
  have hnone : (heardSchemas env answers).filter (fun r => r.2.recordsDrop) = [] := by
    rw [filter_eq_nil_iff]
    rintro ⟨node, schema⟩ hmem
    simp [recordsDrop_of_isLive (heardSchemas_isLive hmem)]
  simp only [countCanvass, countDrops, hnone, foldl_nil]

theorem droppedHere_le_countCanvass : droppedHere ≤ (countCanvass env droppedHere answers).droppedAt := by
  rw [countCanvass_droppedAt]
  exact (le_foldl_max _ _).1

theorem heardDrops_le_countCanvass {d : Nat} (h : d ∈ heardDrops answers) :
    d ≤ (countCanvass env droppedHere answers).droppedAt := by
  rw [countCanvass_droppedAt]
  exact (le_foldl_max _ _).2 d h

theorem countCanvass_standing (h : (node, schema) ∈ (countCanvass env droppedHere answers).standing) :
    (node, schema) ∈ heardSchemas env answers ∧ (countCanvass env droppedHere answers).droppedAt < schema.version := by
  obtain ⟨hheard, hnot⟩ := mem_filter.mp h
  refine ⟨hheard, (droppedBy_eq_false (recordsDrop_of_isLive (heardSchemas_isLive hheard))).mp ?_⟩
  simpa [countCanvass, countDrops] using hnot

variable {untold : Bool}

theorem peerSchemaFor_found {schema : IndexSchema} (h : peerSchemaFor env droppedHere answers untold = .found schema) :
    ∃ node, (node, schema) ∈ heardSchemas env answers ∧
    (countCanvass env droppedHere answers).droppedAt < schema.version := by
  have hbest : preferredOf env.fingerprint ((countCanvass env droppedHere answers).standing.map Prod.snd) =
      some schema := by
    grind [peerSchemaFor]
  obtain ⟨⟨node, schema⟩, hmem, rfl⟩ := mem_map.mp (preferredOf_mem hbest)
  exact ⟨node, countCanvass_standing hmem⟩

theorem peerSchemaFor_notFound (h : ∀ schema, peerSchemaFor env droppedHere answers untold ≠ .found schema) :
    (countCanvass env droppedHere answers).standing = [] := by
  have hnone : preferredOf env.fingerprint ((countCanvass env droppedHere answers).standing.map Prod.snd) = none := by
    grind [peerSchemaFor]
  exact map_eq_nil_iff.mp (preferredOf_eq_none hnone)

theorem peerSchemaFor_noneHeld {droppedAt : Nat}
    (h : peerSchemaFor env droppedHere answers untold = .noneHeld droppedAt) :
    droppedAt = (countCanvass env droppedHere answers).droppedAt ∧ heardRivals answers = [] := by
  grind [peerSchemaFor]

theorem peerSchemaFor_contested {rivals : List NodeId}
    (h : peerSchemaFor env droppedHere answers untold = .contested rivals) : rivals = heardRivals answers := by
  grind [peerSchemaFor]

end Count

/-! ### Settling a write -/

section Settle
variable {node : NodeState} {docs : WriteDocs}

@[simp] theorem NodeState.load_durable : node.load.durable = node.durable := by
  grind [load, durable]

@[simp] theorem NodeState.load_cached : node.load.cached = node.durable := rfl

@[simp] theorem NodeState.load_schemaFor : node.load.schemaFor = node.schemaFor := by
  rw [schemaFor, load_durable, schemaFor]

@[simp] theorem NodeState.load_load : node.load.load = node.load := by
  grind [load, durable]

@[simp] theorem NodeState.load_droppedHere : node.load.droppedHere = node.droppedHere := by
  rw [droppedHere, load_durable, droppedHere]

@[simp] theorem storeChange_minting (schema : IndexSchema) : (node.storeChange schema).minting = node.minting := by
  grind [storeChange, put, persist]

@[simp] theorem storeChange_mintRivals (schema : IndexSchema) :
    (node.storeChange schema).mintRivals = node.mintRivals := by
  grind [storeChange, put, persist]

@[simp] theorem storeChange_stored (schema : IndexSchema) : (node.storeChange schema).stored = some schema := by
  grind [storeChange, put, persist]

variable (node) in
theorem storeChange_durable (schema : IndexSchema) : (node.storeChange schema).durable = some schema ∨
    ∃ current, node.cached = some current ∧ schema.version < current.version ∧
      (node.storeChange schema).durable = some current := by
  grind [storeChange, put, persist, durable]

theorem dropRecordVersion_schemaFor : dropRecordVersion (some node.schemaFor) = node.droppedHere := by
  rw [droppedHere, schemaFor]
  cases node.durable with
  | none => rfl
  | some schema => rfl

/-- What a node makes of a write, by where its schema came from. -/
inductive Staged (n : NodeState) (docs : WriteDocs) : SchemaSource → NodeState → Settlement → Prop
  | untouched {source} (empty : docs.empty = true) :
      Staged n docs source { n with cached := some n.schemaFor } .untouched
  | kept {source} (live : n.schemaFor.isLive = true) : Staged n docs source n .evolved
  | evolved {source} (live : n.schemaFor.isLive = true) :
    Staged n docs source (n.storeChange (evolveSequential false docs.newFields n.schemaFor)) .evolved
  | adopted {source schema} (notLive : n.schemaFor.isLive = false)
    (carried : source = .carried (some schema) ∧ schema.fields ≠ ∅ ∨ source = .canvassed (.found schema)) :
    Staged n docs source (n.storeChange (evolveSequential false docs.newFields schema)) (.adopted schema)
  | minted {droppedAt} (full : docs.empty = false) (notLive : n.schemaFor.isLive = false) :
    Staged n docs (.canvassed (.noneHeld droppedAt))
      (n.storeChange (evolveSequential true docs.newFields (mintedSchema n.schemaFor droppedAt)))
      (.minted (evolveSequential true docs.newFields (mintedSchema n.schemaFor droppedAt)))

theorem stagedSchemaValidation_cases {source : SchemaSource} {n' : NodeState} {settlement : Settlement}
    (h : stagedSchemaValidation node docs source = .ok (n', settlement)) :
    Staged node.load docs source n' settlement := by
  revert h
  fun_cases stagedSchemaValidation node docs source <;> intro h <;> cases h
  case case2 hempty => exact .untouched hempty
  case case3 hlive _ =>
    split
    · exact .kept hlive
    · exact .evolved hlive
  case case5 hlive _ hfields => exact .adopted (Bool.not_eq_true _ ▸ hlive) (.inl ⟨rfl, by simpa using hfields⟩)
  case case7 hlive _ => exact .adopted (Bool.not_eq_true _ ▸ hlive) (.inr rfl)
  case case10 hfull hlive _ _ _ => exact .minted (Bool.not_eq_true _ ▸ hfull) (Bool.not_eq_true _ ▸ hlive)

/-- A first write back in the mailbox: it yields to a lower rival, is refused, or runs on what the canvass came to,
    where the winner of a race goes on as if nobody had held the index. -/
inductive MintCases (me : NodeId) (n : NodeState) (docs : WriteDocs) (lookup : PeerSchemaLookup) (counted : Bool) :
    AfterCanvass × NodeState → Prop
  | yielded {winner} (marked : counted = true) (notLive : n.schemaFor.isLive = false)
    (wins : mintWinner me (rivalsOf n lookup) = some winner) :
    MintCases me n docs lookup counted (.yielded winner, releaseMint n counted)
  | refused {reason} : MintCases me n docs lookup counted (.ran (.error reason), releaseMint n counted)
  | ran {lookup' n' settlement} (staged : Staged n docs (.canvassed lookup') n' settlement)
    (same : lookup' = lookup ∨ ∃ rivals, lookup = .contested rivals ∧ lookup' = .noneHeld 0)
    (first : counted = true → n.schemaFor.isLive = false → ∀ droppedAt, lookup' = .noneHeld droppedAt →
      mintWinner me (rivalsOf n lookup) = none) :
    MintCases me n docs lookup counted (.ran (.ok settlement), releaseMint n' counted)

theorem runWrite_cases {me : NodeId} {n : NodeState} {lookup lookup' : PeerSchemaLookup} {counted : Bool}
    (loaded : n.load = n) (same : lookup' = lookup ∨ ∃ rivals, lookup = .contested rivals ∧ lookup' = .noneHeld 0)
    (first : counted = true → n.schemaFor.isLive = false → ∀ droppedAt, lookup' = .noneHeld droppedAt →
      mintWinner me (rivalsOf n lookup) = none) :
    MintCases me n docs lookup counted (runWrite n docs lookup' counted) := by
  unfold runWrite
  split
  · rename_i n' settlement hok
    have hstaged := stagedSchemaValidation_cases hok
    rw [loaded] at hstaged
    exact .ran hstaged same first
  · exact .refused

theorem mintAfterCanvass_cases (me : NodeId) (node : NodeState) (docs : WriteDocs) (lookup : PeerSchemaLookup)
    (counted : Bool) : MintCases me node.load docs lookup counted (mintAfterCanvass me node docs lookup counted) := by
  have hrun (lookup' : PeerSchemaLookup) := @runWrite_cases docs me node.load lookup lookup' counted load_load
  unfold mintAfterCanvass
  dsimp only
  split
  · rename_i hcond
    obtain ⟨hcounted, hnot⟩ : counted = true ∧ node.load.schemaFor.isLive = false := by simpa using hcond
    cases lookup with
    | noneHeld droppedAt =>
      dsimp only
      split
      · rename_i hwinner
        exact hrun _ (.inl rfl) (fun _ _ _ _ => hwinner)
      · rename_i winner hwinner
        exact .yielded hcounted hnot hwinner
    | contested rivals =>
      dsimp only
      split
      · rename_i hwinner
        exact hrun _ (.inr ⟨rivals, rfl, rfl⟩) (fun _ _ _ _ => hwinner)
      · rename_i winner hwinner
        exact .yielded hcounted hnot hwinner
    | found | unreachable => exact hrun _ (.inl rfl) (fun _ _ _ h => nomatch h)
  · rename_i hcond
    exact hrun _ (.inl rfl) (fun hcounted hnot => hcond (by rw [hcounted, hnot]; rfl) |>.elim)

end Settle

/-! ### One event -/

section Events
variable {env : ClusterEnv} {c c' : Cluster}

inductive MintStep (env : ClusterEnv) (c : Cluster) : MintEvent → Cluster → Prop
  | write {node docs} (member : node ∈ c.members) (notLive : (c.nodes node).schemaFor.isLive = false) :
    MintStep env c (.write node docs)
      ((c.setNode node (c.nodes node).load.mark).addCanvass ⟨node, true, (c.nodes node).droppedHere, docs, [], [], []⟩)
  | ask {k peer delivery canvass} (at_ : c.canvasses[k]? = some canvass) (member : peer ∈ c.members)
    (other : peer ≠ canvass.node) (fresh : canvass.hasAnswered peer = false) :
    MintStep env c (.ask k peer delivery) (c.askPeer k canvass peer delivery)
  | finish {k peer delivery canvass} (at_ : c.canvasses[k]? = some canvass)
      (answered : canvass.allAnswered c.members = true) (missed : peer ∈ canvass.untold env c.members) :
    MintStep env c (.finish k peer delivery) (c.finishPeer env k canvass peer delivery)
  | settle {k canvass} (at_ : c.canvasses[k]? = some canvass) (complete : canvass.complete env c.members = true)
    (may : canvass.counted = true ∨ ∃ schema, canvass.lookup env c.members = .found schema) :
    MintStep env c (.settle k) (c.settleCanvass env k canvass)
  | retry {k canvass} (at_ : c.canvasses[k]? = some canvass) (yielded : canvass.counted = false) :
    MintStep env c (.retry k) (c.setCanvass k { canvass with answers := [], finished := [], withheld := [] })
  | giveUp {k canvass} (at_ : c.canvasses[k]? = some canvass) (yielded : canvass.counted = false) :
    MintStep env c (.giveUp k) (c.dropCanvass k)
  | forwarded {node docs body} : MintStep env c (.forwarded node docs body) (c.forwardedWrite node docs body)
  | apply {node schema world} : MintStep env c (.apply node schema world) (c.applyChange env node schema world)
  | delete {node} : MintStep env c (.delete node) (c.setNode node (orchDeleteIndex (c.nodes node)))

theorem mintStep_cases {e : MintEvent} (h : mintStep env c e = some c') : MintStep env c e c' := by
  cases e with
  | write node docs =>
    simp only [mintStep, ite_none_right_eq_some, load_schemaFor, load_droppedHere] at h
    obtain ⟨⟨hmember, hlive⟩, h⟩ := h
    cases h
    exact .write hmember hlive
  | settle k =>
    obtain ⟨canvass, hat, h⟩ := bind_eq_some_iff.mp h
    obtain ⟨hcomplete, h⟩ := ite_none_right_eq_some.mp h
    split at h
    · rename_i hfound
      cases h
      exact .settle hat hcomplete (.inr ⟨_, hfound⟩)
    · cases h
    · rename_i hcounted
      cases h
      exact .settle hat hcomplete (.inl hcounted)
  | ask | finish | retry | giveUp =>
    obtain ⟨canvass, hat, h⟩ := bind_eq_some_iff.mp h
    obtain ⟨hguard, h⟩ := ite_none_right_eq_some.mp h
    cases h
    first
    | exact .ask hat hguard.1 hguard.2.1 hguard.2.2
    | exact .finish hat hguard.1 hguard.2
    | exact .retry hat hguard
    | exact .giveUp hat hguard
  | forwarded | apply | delete =>
    obtain ⟨-, h⟩ := ite_none_right_eq_some.mp h
    cases h
    constructor

end Events

/-! ### A small cluster -/

def plainClusterEnv : ClusterEnv :=
  ⟨⟨fun _ => "", fun _ => 0, fun _ => none, fun _ => false, fun _ => none, fun _ => none, fun t => t⟩, fun _ => 0,
    fun _ _ => none, fun _ _ => [], fun _ => true, fun _ => true⟩

/-- A node that never heard of the index. -/
def idleNode : NodeState := ⟨none, none, 0, [], none⟩

/-- A write of one document with a title. -/
def titled : WriteDocs := ⟨false, [("title", .text)], true, true⟩

end CameoDb
