import CameoDb.Theorems.Node.Canvass
import Mathlib.Data.List.Nodup

/-! # At most one node mints an index

Two nodes that mint at once have each asked the other, the later while both were minting, so the one with the higher
id yields. -/

namespace CameoDb
open List NodeState Canvass Std

/-- The steps of first writes with every message delivered. -/
def MintEvent.IsFirstWrite : MintEvent → Prop
  | write .. => True
  | ask _ _ delivery => delivery = .delivered
  | finish _ _ delivery => delivery = .delivered
  | settle _ => True
  | retry _ => True
  | giveUp _ => True
  | forwarded .. => False
  | apply .. => False
  | delete _ => False

/-- No write comes without documents, and no peer is told to finish a drop. -/
def MintEvent.IsPlain : MintEvent → Prop
  | write _ docs => docs.empty = false
  | finish .. => False
  | _ => True

/-- A schema that comes from a minted one by what later writes learned and by travelling between nodes. -/
inductive Descends (p : Parsers) (minted : IndexSchema) : IndexSchema → Prop
  | refl : Descends p minted minted
  | evolved {schema} (newFields) (h : Descends p minted schema) :
      Descends p minted (evolveSequential false newFields schema)
  | normalized {schema} (h : Descends p minted schema) : Descends p minted (schema.normalizeAfterDeserialization p)

/-- The node stores nothing but a record of a drop. -/
def NodeState.Unheld (n : NodeState) : Prop :=
  ∀ schema, n.durable = some schema → schema.recordsDrop = true ∧ schema.version < u64Limit

/-- No node holds the index and none is creating it. -/
structure Cluster.Unheld (c : Cluster) : Prop where
  nodes : ∀ node, (c.nodes node).Unheld ∧ (c.nodes node).minting = 0
  canvasses : c.canvasses = []
  installs : c.installs = []

def Cluster.minted (c : Cluster) : List Install := c.installs.filter fun install => install.origin = .minted

/-- One schema is minted and all others descend from it. -/
structure Cluster.SingleMint (env : ClusterEnv) (c : Cluster) : Prop where
  once : c.minted.length ≤ 1
  installs : ∀ install ∈ c.installs, ∃ minted ∈ c.minted, Descends env.parsers minted.schema install.schema
  held : ∀ node schema, (c.nodes node).durable = some schema → schema.isLive = true →
    ∃ minted ∈ c.minted, Descends env.parsers minted.schema schema

/-! ### What a canvass knows -/

namespace Canvass

/-- A peer answered with a live schema. -/
def HearsLive (t : Canvass) : Prop := ∃ peer schema, (peer, .answered (some schema)) ∈ t.answers ∧ schema.isLive = true

/-- A canvass of a member that has not finished. -/
structure InFlight (members : List NodeId) (t : Canvass) : Prop where
  member : t.node ∈ members
  full : t.docs.empty = false
  asked : ∀ a ∈ t.answers, a.1 ∈ members
  once : (t.answers.map Prod.fst).Nodup
  unfinished : t.finished = []

variable {members : List NodeId} {t : Canvass} {env : ClusterEnv} {peer : NodeId} {answer : PeerAnswer}

theorem mem_answers_of_inOrder (h : (peer, answer) ∈ t.inOrder members) : (peer, answer) ∈ t.answers := by
  obtain ⟨asked, -, hfind⟩ := mem_filterMap.mp h
  exact mem_of_find?_eq_some hfind

theorem inOrder_of_mem_answers (once : (t.answers.map Prod.fst).Nodup) (h : (peer, answer) ∈ t.answers)
    (member : peer ∈ members) : (peer, answer) ∈ t.inOrder members := by
  refine mem_filterMap.mpr ⟨peer, member, ?_⟩
  obtain ⟨found, hfound⟩ : ∃ found, t.answers.find? (fun a => a.1 = peer) = some found := by
    rw [← Option.isSome_iff_exists, find?_isSome]
    exact ⟨(peer, answer), h, by simp⟩
  have hsame : found.1 = peer := by simpa using find?_some hfound
  have heq : found = (peer, answer) := inj_on_of_nodup_map once (mem_of_find?_eq_some hfound) h hsame
  rw [hfound, heq]

theorem hasAnswered_iff : t.hasAnswered peer = true ↔ ∃ answer, (peer, answer) ∈ t.answers := by
  simp only [hasAnswered, any_eq_true, decide_eq_true_eq]
  exact ⟨fun ⟨⟨p, a⟩, h, heq⟩ => ⟨a, heq ▸ h⟩, fun ⟨a, h⟩ => ⟨_, h, rfl⟩⟩

theorem hasAnswered_of_complete (complete : t.complete env members = true) (member : peer ∈ members)
    (other : peer ≠ t.node) : t.hasAnswered peer = true := by
  have hall := (Bool.and_eq_true_iff.mp complete).1
  have hpeer := all_eq_true.mp hall peer member
  simpa [other] using hpeer

theorem heardSchemas_of_complete (flight : t.InFlight members) (complete : t.complete env members = true)
    (standing : (t.counts env members).standing = []) : heardSchemas env (t.inOrder members) = [] := by
  have hmissed : (t.counts env members).missed = [] := by
    have huntold := (Bool.and_eq_true_iff.mp complete).2
    simpa [untold, flight.unfinished] using huntold
  rw [eq_nil_iff_forall_not_mem]
  rintro ⟨peer, schema⟩ hmem
  simp only [counts, countCanvass, countDrops, filter_eq_nil_iff, map_eq_nil_iff] at hmissed standing
  have hm := hmissed _ hmem
  have hs := standing _ hmem
  simp only [Bool.not_eq_true', Bool.not_eq_true] at hm hs
  rw [hm] at hs
  exact absurd rfl hs

theorem found_of_hearsLive (flight : t.InFlight members) (complete : t.complete env members = true)
    (h : t.HearsLive) : ∃ schema, t.lookup env members = .found schema := by
  by_contra hnone
  have hstanding := peerSchemaFor_notFound fun schema hfound => hnone ⟨schema, hfound⟩
  have hempty := heardSchemas_of_complete flight complete hstanding
  obtain ⟨peer, schema, hmem, hlive⟩ := h
  have hheard : (peer, schema.normalizeAfterDeserialization env.parsers) ∈ heardSchemas env (t.inOrder members) := by
    refine mem_filterMap.mpr ⟨_, inOrder_of_mem_answers flight.once hmem (flight.asked _ hmem), ?_⟩
    simp [heldSchema, hlive]
  rw [hempty] at hheard
  cases hheard

end Canvass

/-! ### What a write leaves on its node -/

section Node
variable {n n' : NodeState} {docs : WriteDocs} {source : SchemaSource} {settlement : Settlement}

theorem Staged.marks (h : Staged n docs source n' settlement) :
    n'.minting = n.minting ∧ n'.mintRivals = n.mintRivals := by
  cases h <;> simp

theorem NodeState.durable_of_isLive (h : n.schemaFor.isLive = true) : n.durable = some n.schemaFor := by
  unfold schemaFor at h ⊢
  cases hdurable : n.durable with
  | none =>
    rw [hdurable] at h
    cases h
  | some schema => rfl

theorem NodeState.schemaFor_of_durable {schema : IndexSchema} (h : n.durable = some schema) : n.schemaFor = schema := by
  rw [schemaFor, h]
  rfl

/-- A write that mints nothing leaves the schema its node held, or one that comes from it or from the schema found. -/
theorem Staged.holds (h : Staged n.load docs source n' settlement) (full : docs.empty = false)
    (hmint : ∀ schema, settlement ≠ .minted schema) (schema : IndexSchema) (hschema : n'.durable = some schema) :
    n.durable = some schema ∨ ∃ from_, schema = evolveSequential false docs.newFields from_ ∧
      (n.durable = some from_ ∧ from_.isLive = true ∨ settlement = .adopted from_) := by
  have hstored := fun new => storeChange_durable n.load new
  cases h with
  | untouched empty => exact absurd (empty.symm.trans full) (by decide)
  | kept live => exact .inl (load_durable.symm.trans hschema)
  | evolved live =>
    rw [load_schemaFor] at live hschema
    grind [hstored (evolveSequential false docs.newFields n.schemaFor), durable_of_isLive, load_cached]
  | @adopted _ found notLive carried => grind [hstored (evolveSequential false docs.newFields found), load_cached]
  | minted full notLive => exact absurd rfl (hmint _)

theorem Staged.live (h : Staged n.load docs source n' settlement) (hlive : n.schemaFor.isLive = true) :
    n'.schemaFor.isLive = true := by
  have hload : n.load.schemaFor.isLive = true := by rwa [load_schemaFor]
  cases h with
  | untouched empty => exact hload
  | kept live => exact hload
  | evolved live =>
    obtain hnew | ⟨current, hcached, hlt, -⟩ :=
      storeChange_durable n.load (evolveSequential false docs.newFields n.load.schemaFor)
    · rw [schemaFor_of_durable hnew]
      exact evolveSequential_isLive hload
    · -- Learning a field leaves the version, so the cache holds nothing newer.
      grind [evolveSequential_spec, load_schemaFor, load_cached, schemaFor_of_durable]
  | adopted notLive carried | minted full notLive => exact absurd (hload.symm.trans notLive) (by decide)

theorem mint_durable (unheld : n.Unheld) (newFields : List (String × TantivyFieldType)) (droppedAt : Nat) :
    (n.load.storeChange (evolveSequential true newFields (mintedSchema n.schemaFor droppedAt))).durable =
      some (evolveSequential true newFields (mintedSchema n.schemaFor droppedAt)) := by
  obtain hnew | ⟨current, hcached, hlt, -⟩ :=
    storeChange_durable n.load (evolveSequential true newFields (mintedSchema n.schemaFor droppedAt))
  · exact hnew
  · rw [load_cached] at hcached
    obtain ⟨hdrop, hfits⟩ := unheld current hcached
    rw [(evolveSequential_spec _ _ _).1, mintedSchema_version, schemaFor_of_durable hcached,
      dropRecordVersion, if_pos hdrop] at hlt
    unfold nextVersion at hlt
    split at hlt <;> omega

@[simp] theorem releaseMint_durable (counted : Bool) : (releaseMint n counted).durable = n.durable := by
  unfold releaseMint durable
  grind

theorem releaseMint_marks (counted : Bool) : (releaseMint n counted).minting = n.minting - counted.toNat ∧
    (counted.toNat < n.minting ∨ counted = false → (releaseMint n counted).mintRivals = n.mintRivals) := by
  unfold releaseMint
  cases counted <;> grind

end Node

/-! ### The race -/

namespace Cluster

def Live (c : Cluster) (node : NodeId) : Prop := (c.nodes node).schemaFor.isLive = true

/-- The canvass has heard of a rival, or its node has. -/
def Knows (c : Cluster) (t : Canvass) (rival : NodeId) : Prop :=
  (rival, .minting) ∈ t.answers ∨ rival ∈ (c.nodes t.node).mintRivals

/-- The canvass will find a schema rather than mint one. -/
def Bound (c : Cluster) (t : Canvass) : Prop := c.Live t.node ∨ t.HearsLive

/-- A canvass that yields. -/
def Beaten (c : Cluster) (t : Canvass) : Prop := ∃ rival < t.node, c.Knows t rival

def isMark (node : NodeId) (t : Canvass) : Bool := t.counted && t.node = node

/-- The writes that are minting the index on a node. -/
def markCount (c : Cluster) (node : NodeId) : Nat := c.canvasses.countP (isMark node)

/-- Two canvasses of different nodes that were answered by each other's node know of each other. -/
def Paired (c : Cluster) (t u : Canvass) : Prop :=
  t.node ≠ u.node → t.hasAnswered u.node = true → u.hasAnswered t.node = true →
    c.Bound t ∨ c.Bound u ∨ c.Knows t u.node ∧ c.Knows u t.node

/-- A canvass that asked the winner does not mint. -/
def LostTo (c : Cluster) (winner : NodeId) (t : Canvass) : Prop :=
  t.node ≠ winner → t.hasAnswered winner = true → c.Bound t ∨ c.Beaten t

/-- What holds throughout a run of first writes. -/
structure Race (env : ClusterEnv) (c : Cluster) : Prop where
  single : c.SingleMint env
  winner : ∀ m ∈ c.minted, m.node ∈ c.members ∧ c.Live m.node
  marks : ∀ node, (c.nodes node).minting = c.markCount node
  held : ∀ node schema, (c.nodes node).durable = some schema →
    schema.isLive = true ∨ schema.recordsDrop = true ∧ schema.version < u64Limit
  flights : ∀ t ∈ c.canvasses, t.InFlight c.members
  answers : ∀ t ∈ c.canvasses, ∀ peer schema, (peer, .answered (some schema)) ∈ t.answers → schema.isLive = true →
    ∃ m ∈ c.minted, Descends env.parsers m.schema schema
  paired : ∀ t ∈ c.canvasses, ∀ u ∈ c.canvasses, t.counted = true → u.counted = true → c.Paired t u
  lost : ∀ m ∈ c.minted, ∀ t ∈ c.canvasses, t.counted = true → c.LostTo m.node t

variable {env : ClusterEnv} {c c' : Cluster}

theorem Unheld.race (h : c.Unheld) : c.Race env := by
  have hminted : c.minted = [] := by simp [minted, h.installs]
  refine ⟨⟨by simp [hminted], by simp [h.installs], fun node schema hheld hlive => ?_⟩,
    by simp [hminted], fun node => ?_,
    fun node schema hheld => .inr ((h.nodes node).1 schema hheld), ?_, ?_, ?_, by simp [hminted]⟩
  · have hdrop := ((h.nodes node).1 schema hheld).1
    rw [IndexSchema.recordsDrop_of_isLive hlive] at hdrop
    cases hdrop
  · rw [(h.nodes node).2, markCount, h.canvasses]
    rfl
  all_goals simp [h.canvasses]

theorem Race.minting_pos (h : c.Race env) {t : Canvass} (mem : t ∈ c.canvasses) (counted : t.counted = true) :
    0 < (c.nodes t.node).minting := by
  rw [h.marks]
  exact countP_pos_iff.mpr ⟨t, mem, by simp [isMark, counted]⟩

theorem Race.unheld (h : c.Race env) {node : NodeId} (notLive : ¬ c.Live node) : (c.nodes node).Unheld := by
  intro schema hschema
  refine (h.held node schema hschema).resolve_left fun hlive => notLive ?_
  unfold Live
  rw [schemaFor_of_durable hschema]
  exact hlive

/-- What a peer's answer says of the peer. -/
structure Tells (c c' : Cluster) (t : Canvass) (peer : NodeId) (answer : PeerAnswer) : Prop where
  schema : ∀ schema, answer = .answered (some schema) → (c.nodes peer).durable = some schema
  live : c.Live peer → ∃ schema, answer = .answered (some schema) ∧ schema.isLive = true
  minting : t.counted = true → ¬ c.Live peer → 0 < (c.nodes peer).minting →
    answer = .minting ∧ t.node ∈ (c'.nodes peer).mintRivals

/-- A canvass after a step, which may have heard more. -/
structure Hears (c c' : Cluster) (t u : Canvass) : Prop where
  node : u.node = t.node
  counted : u.counted = t.counted
  heard : t.answers ⊆ u.answers
  tells : ∀ peer answer, (peer, answer) ∈ u.answers → (peer, answer) ∈ t.answers ∨ Tells c c' u peer answer
  rivals : u.counted = true → (c.nodes u.node).mintRivals ⊆ (c'.nodes u.node).mintRivals

/-- What a step keeps: schemas stay, and so does what a canvass in flight knows. -/
structure Frame (c c' : Cluster) : Prop where
  members : c'.members = c.members
  live : ∀ node, c.Live node → c'.Live node
  old : ∀ u ∈ c'.canvasses, u.answers = [] ∨ ∃ t ∈ c.canvasses, Hears c c' t u

namespace Frame
variable {t u : Canvass}

theorem bound (f : Frame c c') (e : Hears c c' t u) (h : c.Bound t) : c'.Bound u := by
  refine h.imp (fun hlive => e.node ▸ f.live t.node hlive) ?_
  rintro ⟨peer, schema, hmem, hlive⟩
  exact ⟨peer, schema, e.heard hmem, hlive⟩

theorem knows (e : Hears c c' t u) (counted : u.counted = true) {rival : NodeId} (h : c.Knows t rival) :
    c'.Knows u rival :=
  h.imp (fun hmem => e.heard hmem) fun hrival => e.rivals counted (e.node ▸ hrival)

/-- An answer that a canvass has was there before, or was just given. -/
theorem answered (f : Frame c c') (hu : u ∈ c'.canvasses) {peer : NodeId} (h : u.hasAnswered peer = true) :
    ∃ t ∈ c.canvasses, Hears c c' t u ∧
      (t.hasAnswered peer = true ∨ ∃ answer, (peer, answer) ∈ u.answers ∧ Tells c c' u peer answer) := by
  obtain ⟨answer, hmem⟩ := hasAnswered_iff.mp h
  obtain hnone | ⟨t, ht, e⟩ := f.old u hu
  · rw [hnone] at hmem
    cases hmem
  · exact ⟨t, ht, e, (e.tells peer answer hmem).imp (fun hmem => hasAnswered_iff.mpr ⟨answer, hmem⟩)
      fun tells => ⟨answer, hmem, tells⟩⟩

theorem met (f : Frame c c') (h : c.Race env) {v w : Canvass} (hw : w ∈ c.canvasses) (e : Hears c c' w v)
    (huc : u.counted = true) (hvc : v.counted = true) {answer : PeerAnswer} (hmem : (v.node, answer) ∈ u.answers)
    (tells : Tells c c' u v.node answer) : c'.Bound v ∨ c'.Knows u v.node ∧ c'.Knows v u.node := by
  by_cases hlive : c.Live v.node
  · exact .inl (.inl (f.live v.node hlive))
  · have hmark : 0 < (c.nodes v.node).minting := e.node ▸ h.minting_pos hw (e.counted ▸ hvc)
    obtain ⟨rfl, hrival⟩ := tells.minting huc hlive hmark
    exact .inr ⟨.inl hmem, .inr hrival⟩

theorem paired (f : Frame c c') (h : c.Race env) :
    ∀ u ∈ c'.canvasses, ∀ v ∈ c'.canvasses, u.counted = true → v.counted = true → c'.Paired u v := by
  intro u hu v hv huc hvc hne huv hvu
  obtain ⟨t, ht, eu, hold | ⟨answer, hmem, tells⟩⟩ := f.answered hu huv <;>
    obtain ⟨w, hw, ev, hold' | ⟨answer', hmem', tells'⟩⟩ := f.answered hv hvu
  · rw [ev.node] at hold
    rw [eu.node] at hold'
    rcases h.paired t ht w hw (eu.counted ▸ huc) (ev.counted ▸ hvc) (by rwa [← eu.node, ← ev.node]) hold hold'
      with hb | hb | ⟨hk, hk'⟩
    · exact .inl (f.bound eu hb)
    · exact .inr (.inl (f.bound ev hb))
    · exact .inr (.inr ⟨ev.node ▸ knows eu huc hk, eu.node ▸ knows ev hvc hk'⟩)
  · exact (f.met h ht eu hvc huc hmem' tells').imp id fun ⟨hk, hk'⟩ => .inr ⟨hk', hk⟩
  all_goals exact .inr (f.met h hw ev huc hvc hmem tells)

theorem lost (f : Frame c c') {winner : NodeId} (hwinner : c.Live winner)
    (h : ∀ t ∈ c.canvasses, t.counted = true → c.LostTo winner t) :
    ∀ u ∈ c'.canvasses, u.counted = true → c'.LostTo winner u := by
  intro u hu huc hne hanswered
  obtain ⟨t, ht, e, hold | ⟨answer, hmem, tells⟩⟩ := f.answered hu hanswered
  · rcases h t ht (e.counted ▸ huc) (e.node ▸ hne) hold with hb | ⟨rival, hlt, hk⟩
    · exact .inl (f.bound e hb)
    · exact .inr ⟨rival, e.node ▸ hlt, knows e huc hk⟩
  · obtain ⟨schema, rfl, hlive⟩ := tells.live hwinner
    exact .inl (.inr ⟨winner, schema, hmem, hlive⟩)

end Frame

/-- A step keeps the race if what it makes live comes from what is minted, and every canvass has lost to who mints
    now. -/
theorem Race.frame (h : c.Race env) (f : Frame c c') (honce : c'.minted.length ≤ 1) (hkept : c.minted ⊆ c'.minted)
    (hminted : ∀ m ∈ c'.minted, m ∈ c.minted ∨
      (m.node ∈ c.members ∧ c'.Live m.node) ∧ ∀ u ∈ c'.canvasses, u.counted = true → c'.LostTo m.node u)
    (hinstalls : ∀ i ∈ c'.installs, i ∈ c.installs ∨ ∃ m ∈ c'.minted, Descends env.parsers m.schema i.schema)
    (hheld : ∀ node schema, (c'.nodes node).durable = some schema → (c.nodes node).durable = some schema ∨
      schema.isLive = true ∧ ∃ m ∈ c'.minted, Descends env.parsers m.schema schema)
    (hmarks : ∀ node, (c'.nodes node).minting = c'.markCount node)
    (hflights : ∀ t ∈ c'.canvasses, t.InFlight c.members) : c'.Race env := by
  have hdesc : ∀ {schema}, (∃ m ∈ c.minted, Descends env.parsers m.schema schema) →
      ∃ m ∈ c'.minted, Descends env.parsers m.schema schema := fun ⟨m, hm, hd⟩ => ⟨m, hkept hm, hd⟩
  refine ⟨⟨honce, fun i hi => (hinstalls i hi).elim (fun hi => hdesc (h.single.installs i hi)) id,
    fun node schema hs hlive => ?_⟩,
    fun m hm => ?_, hmarks, fun node schema hs => (hheld node schema hs).elim (h.held node schema) fun hs => .inl hs.1,
    f.members.symm ▸ hflights, fun u hu peer schema hmem hlive => ?_, f.paired h, fun m hm => ?_⟩
  · exact (hheld node schema hs).elim (fun hs => hdesc (h.single.held node schema hs hlive)) And.right
  · rw [f.members]
    exact (hminted m hm).elim (fun hm => (h.winner m hm).imp id (f.live m.node)) And.left
  · obtain hnone | ⟨t, ht, e⟩ := f.old u hu
    · rw [hnone] at hmem
      cases hmem
    · rcases e.tells peer _ hmem with hmem | tells
      · exact hdesc (h.answers t ht peer schema hmem hlive)
      · exact hdesc (h.single.held peer schema (tells.schema schema rfl) hlive)
  · exact (hminted m hm).elim (fun hm => f.lost (h.winner m hm).2 (h.lost m hm)) And.right

/-! ### Events -/

@[simp] theorem setNode_nodes (i j : NodeId) (n : NodeState) :
    (c.setNode i n).nodes j = if j = i then n else c.nodes j := by
  simp only [setNode, Function.update_apply]

theorem live_of_durable (h : ∀ j, (c'.nodes j).durable = (c.nodes j).durable) (j : NodeId) (hlive : c.Live j) :
    c'.Live j := by
  unfold Live schemaFor at hlive ⊢
  rw [h j]
  exact hlive

/-- A step that mints nothing, makes nothing live, and keeps what every node knows. -/
theorem Race.quiet (h : c.Race env) (hmembers : c'.members = c.members) (hinstalls : c'.installs = c.installs)
    (hdurable : ∀ node, (c'.nodes node).durable = (c.nodes node).durable)
    (hold : ∀ u ∈ c'.canvasses, u.answers = [] ∨ ∃ t ∈ c.canvasses, Hears c c' t u)
    (hmarks : ∀ node, (c'.nodes node).minting = c'.markCount node)
    (hflights : ∀ t ∈ c'.canvasses, t.InFlight c.members) : c'.Race env := by
  have hminted : c'.minted = c.minted := by rw [minted, minted, hinstalls]
  exact h.frame ⟨hmembers, live_of_durable hdurable, hold⟩ (hminted ▸ h.single.once) (hminted ▸ List.Subset.refl _)
    (fun m hm => .inl (hminted ▸ hm)) (fun i hi => .inl (hinstalls ▸ hi))
    (fun node schema hs => .inl ((hdurable node).symm.trans hs)) hmarks hflights

theorem Hears.refl {t : Canvass} (h : (c.nodes t.node).mintRivals ⊆ (c'.nodes t.node).mintRivals) : Hears c c' t t :=
  ⟨rfl, rfl, List.Subset.refl _, fun _ _ hmem => .inl hmem, fun _ => h⟩

theorem Race.write (h : c.Race env) {node : NodeId} {docs : WriteDocs} (member : node ∈ c.members)
    (full : docs.empty = false) : Race env
      ((c.setNode node (c.nodes node).load.mark).addCanvass
      ⟨node, true, (c.nodes node).droppedHere, docs, [], [], []⟩) := by
  have hnodes := fun j => setNode_nodes (c := c) node j (c.nodes node).load.mark
  refine h.quiet rfl rfl (fun j => ?_) (fun t ht => ?_) (fun j => ?_) (fun t ht => ?_)
  · exact (congrArg durable (hnodes j)).trans (by grind [mark, load_durable, durable])
  · rcases mem_append.mp ht with ht | ht
    · refine .inr ⟨t, ht, .refl ?_⟩
      change _ ⊆ ((c.setNode node (c.nodes node).load.mark).nodes t.node).mintRivals
      grind [mark, load]
    · exact .inl (by rw [mem_singleton.mp ht])
  · have hcount := h.marks j
    simp only [markCount, addCanvass, countP_append, countP_singleton, isMark] at hcount ⊢
    grind [mark, load, setNode]
  · rcases mem_append.mp ht with ht | ht
    · exact h.flights t ht
    · rw [mem_singleton.mp ht]
      exact ⟨member, full, by simp, nodup_nil, rfl⟩

end Cluster

/-! ### A question to a peer -/

/-- What a node answers when it is asked for the schema: it keeps its own, and can only learn of a rival. -/
structure AnswersPeer (n : NodeState) (mintingBy : Option NodeId) (raw : RawAnswer × NodeState) : Prop where
  durable : raw.2.durable = n.durable
  minting : raw.2.minting = n.minting
  mintRivals : n.mintRivals ⊆ raw.2.mintRivals
  schema : ∀ schema, raw.1.heard = .answered (some schema) → n.durable = some schema
  live : n.schemaFor.isLive = true → raw.1.heard = .answered (some n.schemaFor)
  beingMinted : (∀ schema, n.durable = some schema → schema.recordsDrop = true) → 0 < n.minting →
    raw.1.heard = .minting ∧ ∀ rival, mintingBy = some rival → rival ∈ raw.2.mintRivals

theorem rawSchemaForPeer_answersPeer (n : NodeState) (mintingBy : Option NodeId) :
    AnswersPeer n mintingBy (rawSchemaForPeer n mintingBy) := by
  have hlive := @durable_of_isLive n
  have hload := n.load_durable
  have hdrop := @IndexSchema.recordsDrop_of_isLive
  have hrivals : n.mintRivals ⊆ insertRival n.mintRivals mintingBy := by
    unfold insertRival
    intro rival hmem
    grind
  unfold rawSchemaForPeer
  dsimp only
  rw [hload]
  split
  · rename_i held hheld
    obtain ⟨hheld, -⟩ := Option.filter_eq_some_iff.mp hheld
    constructor <;> grind [RawAnswer.heard, load]
  · split
    · constructor <;> grind [RawAnswer.heard, insertRival, load, durable]
    · split <;> constructor <;> grind [RawAnswer.heard, load]

namespace Cluster
variable {env : ClusterEnv} {c : Cluster}

theorem Race.ask (h : c.Race env) {k : Nat} {t : Canvass} {peer : NodeId} (at_ : c.canvasses[k]? = some t)
    (member : peer ∈ c.members) (fresh : t.hasAnswered peer = false) : Race env (c.askPeer k t peer .delivered) := by
  have ht : t ∈ c.canvasses := mem_of_getElem? at_
  have a := rawSchemaForPeer_answersPeer (c.nodes peer) t.mintingBy
  generalize hraw : rawSchemaForPeer (c.nodes peer) t.mintingBy = raw at a
  have hask : c.askPeer k t peer .delivered = (c.setNode peer raw.2).setCanvass k
      { t with
        answers := t.answers ++ [(peer, raw.1.heard)]
        withheld := t.withheld ++ raw.1.withheld (c.nodes peer).dropRecord } := by
    rw [← hraw]
    rfl
  rw [hask]
  have hnodes := fun j => setNode_nodes (c := c) peer j raw.2
  have hrivals : ∀ j, (c.nodes j).mintRivals ⊆ ((c.setNode peer raw.2).nodes j).mintRivals := by grind [a.mintRivals]
  have htold : Tells c (c.setNode peer raw.2) t peer raw.1.heard := by
    refine ⟨a.schema, fun hlive => ⟨_, a.live hlive, hlive⟩, fun hcounted hlive hmark => ?_⟩
    obtain ⟨hmint, hrival⟩ := a.beingMinted (fun schema hs => (h.unheld hlive schema hs).1) hmark
    exact ⟨hmint, by grind [mintingBy]⟩
  obtain ⟨before, after, hlist, hset, -⟩ := split_at at_
  refine h.quiet rfl rfl (fun j => ?_) (fun u hu => ?_) (fun j => ?_) (fun u hu => ?_)
  · exact (congrArg durable (hnodes j)).trans (by grind [a.durable])
  · right
    obtain hu | rfl := mem_or_eq_of_mem_set hu
    · exact ⟨u, hu, .refl (hrivals u.node)⟩
    · refine ⟨t, ht, rfl, rfl, subset_append_left _ _, fun p answer hmem => ?_, fun _ => hrivals t.node⟩
      refine (mem_append.mp hmem).imp id fun hmem => ?_
      cases mem_singleton.mp hmem
      exact ⟨htold.schema, htold.live, htold.minting⟩
  · have hcount := h.marks j
    have hsame : ((c.setNode peer raw.2).nodes j).minting = (c.nodes j).minting := by grind [a.minting]
    simp only [markCount, setCanvass, setNode] at hcount hsame ⊢
    rw [hsame, hcount, hset, hlist]
    simp only [countP_append, countP_cons]
    rfl
  · obtain hu | rfl := mem_or_eq_of_mem_set hu
    · exact h.flights u hu
    · obtain ⟨hmember, hfull, hasked, honce, hunfinished⟩ := h.flights t ht
      have hnew : ∀ a ∈ t.answers, a.1 ≠ peer := by
        rintro ⟨p, answer⟩ hmem rfl
        rw [hasAnswered_iff.mpr ⟨answer, hmem⟩] at fresh
        cases fresh
      refine ⟨hmember, hfull, by grind, ?_, hunfinished⟩
      rw [map_append]
      exact honce.append (nodup_singleton _) (by simpa [disjoint_left] using fun answer hmem => hnew _ hmem rfl)

/-! ### Deciding -/

/-- A canvass that ends: its node lets go of its mark, and the write leaves, or asks anew without one. -/
structure Ends (c c' : Cluster) (t : Canvass) (n : NodeState) : Prop where
  members : c'.members = c.members
  nodes : c'.nodes = (c.setNode t.node (releaseMint n t.counted)).nodes
  canvasses : ∃ before rest after, c.canvasses = before ++ t :: after ∧ c'.canvasses = before ++ rest ++ after ∧
    ∀ u ∈ rest, u.counted = false ∧ u.answers = [] ∧ u.InFlight c.members
  minting : n.minting = (c.nodes t.node).minting
  mintRivals : n.mintRivals = (c.nodes t.node).mintRivals
  live : c.Live t.node → n.schemaFor.isLive = true

namespace Ends
variable {c' : Cluster} {t : Canvass} {n : NodeState}

theorem durable (e : Ends c c' t n) (node : NodeId) :
    (c'.nodes node).durable = if node = t.node then n.durable else (c.nodes node).durable := by
  rw [e.nodes, setNode_nodes]
  split
  · rw [releaseMint_durable]
  · rfl

variable {u : Canvass}

theorem mem (e : Ends c c' t n) (hu : u ∈ c'.canvasses) :
    u ∈ c.canvasses ∨ u.counted = false ∧ u.answers = [] ∧ u.InFlight c.members := by
  obtain ⟨before, rest, after, hlist, hlist', hrest⟩ := e.canvasses
  grind

theorem markCount_eq (e : Ends c c' t n) (node : NodeId) :
    c.markCount node = c'.markCount node + (isMark node t).toNat := by
  obtain ⟨before, rest, after, hlist, hlist', hrest⟩ := e.canvasses
  have hnone : rest.countP (isMark node) = 0 := by
    rw [countP_eq_zero]
    intro u hu
    simp [isMark, (hrest u hu).1]
  rw [markCount, markCount, hlist, hlist']
  simp only [countP_append, countP_cons, hnone]
  cases isMark node t <;> simp
  omega

theorem marks (e : Ends c c' t n) (h : c.Race env) (node : NodeId) : (c'.nodes node).minting = c'.markCount node := by
  have hcount := (h.marks node).trans (e.markCount_eq node)
  rw [e.nodes]
  grind [setNode_nodes, releaseMint_marks, e.minting, isMark]

theorem rivals (e : Ends c c' t n) (h : c.Race env) (hu : u ∈ c'.canvasses) (huc : u.counted = true) :
    (c.nodes u.node).mintRivals ⊆ (c'.nodes u.node).mintRivals := by
  rw [e.nodes, setNode_nodes]
  split
  · rename_i heq
    -- The other write has a mark on the node too, so the rivals stay.
    have hmark : 0 < c'.markCount t.node := countP_pos_iff.mpr ⟨u, hu, by simp [isMark, huc, heq]⟩
    have hcount := (h.marks t.node).trans (e.markCount_eq t.node)
    rw [((releaseMint_marks t.counted).2 (.inl ?_)), e.mintRivals, heq]
    · exact List.Subset.refl _
    · grind [e.minting, isMark]
  · exact List.Subset.refl _

theorem frame (e : Ends c c' t n) (h : c.Race env) : Frame c c' := by
  refine ⟨e.members, fun node hlive => ?_, fun u hu => ?_⟩
  · have hdurable := e.durable node
    unfold Live schemaFor at hlive ⊢
    rw [hdurable]
    split
    · rename_i heq
      exact e.live (heq ▸ hlive)
    · exact hlive
  · refine (e.mem hu).symm.imp (fun hrest => hrest.2.1) fun hold => ?_
    exact ⟨u, hold, rfl, rfl, List.Subset.refl _, fun _ _ hmem => .inl hmem, e.rivals h hu⟩

theorem flights (e : Ends c c' t n) (h : c.Race env) : ∀ u ∈ c'.canvasses, u.InFlight c.members := by
  intro u hu
  exact (e.mem hu).elim (h.flights u) fun h => h.2.2

/-- A node keeps its schema, or holds what the canvass that ended left on its own. -/
theorem held (e : Ends c c' t n) {P : IndexSchema → Prop}
    (h : ∀ schema, n.durable = some schema → (c.nodes t.node).durable = some schema ∨ P schema) (node : NodeId)
    (schema : IndexSchema) (hs : (c'.nodes node).durable = some schema) :
    (c.nodes node).durable = some schema ∨ P schema := by
  rw [e.durable node] at hs
  split at hs
  · rename_i heq
    exact heq ▸ h schema hs
  · exact .inl hs

end Ends

variable {c' : Cluster} {t : Canvass} {n : NodeState} {schema : IndexSchema}

/-- A write that mints nothing. -/
theorem Race.settled (h : c.Race env) (e : Ends c c' t n)
    (hheld : ∀ schema, n.durable = some schema → (c.nodes t.node).durable = some schema ∨
      schema.isLive = true ∧ ∃ m ∈ c.minted, Descends env.parsers m.schema schema) (install : Option Install)
    (hinstalls : c'.installs = install.toList ++ c.installs)
    (hinstall : ∀ i, install = some i → i.origin ≠ .minted ∧ ∃ m ∈ c.minted, Descends env.parsers m.schema i.schema) :
    c'.Race env := by
  have hminted : c'.minted = c.minted := by
    rw [minted, hinstalls, filter_append, filter_eq_nil_iff.mpr, nil_append]
    · rfl
    · intro i hi
      simpa using (hinstall i (Option.mem_toList.mp hi)).1
  refine h.frame (e.frame h) (hminted ▸ h.single.once) (hminted ▸ List.Subset.refl _) (fun m hm => .inl (hminted ▸ hm))
    (fun i hi => ?_) (hminted ▸ e.held hheld) (e.marks h) (e.flights h)
  rw [hinstalls, mem_append] at hi
  exact hi.symm.imp id fun hi => hminted ▸ (hinstall i (Option.mem_toList.mp hi)).2

/-- A complete canvass of a write that mints heard of no schema, and knows of no lower rival. -/
theorem Race.mints (h : c.Race env) (ht : t ∈ c.canvasses)
    (complete : t.complete env c.members = true) {droppedAt : Nat}
    (hlookup : t.lookup env c.members = .noneHeld droppedAt ∨ ∃ rivals, t.lookup env c.members = .contested rivals)
    (first : mintWinner t.node (rivalsOf (c.nodes t.node).load (t.lookup env c.members)) = none) :
    ¬ t.HearsLive ∧ ¬ c.Beaten t := by
  have hflight := h.flights t ht
  refine ⟨fun hears => ?_, fun ⟨rival, hlt, hknows⟩ => ?_⟩
  · obtain ⟨schema, hfound⟩ := found_of_hearsLive hflight complete hears
    rcases hlookup with hl | ⟨rivals, hl⟩ <;> cases hfound.symm.trans hl
  · have hmem : rival ∈ rivalsOf (c.nodes t.node).load (t.lookup env c.members) := by
      rcases hknows with hheard | hasked
      · have hrival : rival ∈ heardRivals (t.inOrder c.members) :=
          mem_filterMap.mpr ⟨_, inOrder_of_mem_answers hflight.once hheard (hflight.asked _ hheard), rfl⟩
        rcases hlookup with hl | ⟨rivals, hl⟩
        · rw [(peerSchemaFor_noneHeld hl).2] at hrival
          cases hrival
        · rw [hl, rivalsOf, peerSchemaFor_contested hl]
          exact mem_append_left _ hrival
      · rcases hlookup with hl | ⟨rivals, hl⟩ <;> rw [hl]
        · exact hasked
        · exact mem_append_right _ hasked
    rw [mintWinner, min?_eq_none_iff, filter_eq_nil_iff] at first
    exact first rival hmem (by simpa using hlt)

/-- The write that mints is the first to, and every canvass its node answered will not. -/
theorem Race.mint (h : c.Race env) (e : Ends c c' t n) (ht : t ∈ c.canvasses) (counted : t.counted = true)
    (complete : t.complete env c.members = true) (notLive : ¬ c.Live t.node) (hears : ¬ t.HearsLive)
    (beaten : ¬ c.Beaten t)
    (hlive : schema.isLive = true) (hdurable : n.durable = some schema) {install : Install}
    (hnode : install.node = t.node)
    (hschema : install.schema = schema) (horigin : install.origin = .minted)
    (hinstalls : c'.installs = install :: c.installs) : c'.Race env := by
  have hunbound : ¬ c.Bound t := fun hb => hb.elim notLive hears
  have hfirst : c.minted = [] := by
    rw [eq_nil_iff_forall_not_mem]
    intro m hm
    obtain ⟨hmember, hmlive⟩ := h.winner m hm
    have hne : t.node ≠ m.node := fun heq => notLive (heq ▸ hmlive)
    have hanswered := hasAnswered_of_complete complete hmember hne.symm
    exact (h.lost m hm t ht counted hne hanswered).elim hunbound beaten
  have hminted : c'.minted = [install] := by
    rw [minted, hinstalls, filter_cons_of_pos (by simpa using horigin)]
    exact congrArg _ hfirst
  have f := e.frame h
  have hdur : (c'.nodes t.node).durable = some schema := by rw [e.durable, if_pos rfl, hdurable]
  have hnew : Descends env.parsers install.schema schema := hschema ▸ .refl
  refine h.frame f (by simp [hminted]) (by simp [hfirst]) (fun m hm => .inr ?_) (fun i hi => ?_)
    (e.held fun held hs => .inr ?_) (e.marks h) (e.flights h)
  · rw [hminted, mem_singleton] at hm
    rw [hm, hnode]
    refine ⟨⟨(h.flights t ht).member, ?_⟩, fun u hu huc hne hanswered => ?_⟩
    · unfold Live
      rw [schemaFor_of_durable hdur]
      exact hlive
    · have hu' : u ∈ c.canvasses := (e.mem hu).resolve_right fun hrest => absurd (huc.symm.trans hrest.1) (by decide)
      have hears : Hears c c' u u := .refl (e.rivals h hu huc)
      have hasked := hasAnswered_of_complete complete (h.flights u hu').member hne
      rcases h.paired t ht u hu' counted huc hne.symm hasked hanswered with hb | hb | ⟨hk, hk'⟩
      · exact absurd hb hunbound
      · exact .inl (f.bound hears hb)
      · have hle : ¬ u.node < t.node := fun hlt => beaten ⟨u.node, hlt, hk⟩
        exact .inr ⟨t.node, Nat.lt_of_le_of_ne (Nat.le_of_not_lt hle) hne.symm, Frame.knows hears huc hk'⟩
  · rw [hinstalls, mem_cons] at hi
    exact hi.symm.imp id fun heq : i = install => ⟨install, by simp [hminted], heq ▸ .refl⟩
  · cases hs.symm.trans hdurable
    exact ⟨hlive, install, by simp [hminted], hnew⟩

theorem Race.found (h : c.Race env) (ht : t ∈ c.canvasses) (hfound : t.lookup env c.members = .found schema) :
    schema.isLive = true ∧ ∃ m ∈ c.minted, Descends env.parsers m.schema schema := by
  obtain ⟨peer, hheard, -⟩ := peerSchemaFor_found hfound
  obtain ⟨sent, hmem, hlive, rfl⟩ := heardSchemas_cases hheard
  obtain ⟨m, hm, hdesc⟩ := h.answers t ht peer sent (mem_answers_of_inOrder hmem) hlive
  exact ⟨heardSchemas_isLive hheard, m, hm, .normalized hdesc⟩

theorem Race.settle (h : c.Race env) {k : Nat} (at_ : c.canvasses[k]? = some t)
    (complete : t.complete env c.members = true)
    (may : t.counted = true ∨ ∃ schema, t.lookup env c.members = .found schema) :
    Race env (c.settleCanvass env k t) := by
  have ht : t ∈ c.canvasses := mem_of_getElem? at_
  have hflight := h.flights t ht
  obtain ⟨before, after, hlist, hset, herase⟩ := split_at at_
  have hcases := mintAfterCanvass_cases t.node (c.nodes t.node) t.docs (t.lookup env c.members) t.counted
  unfold settleCanvass
  dsimp only
  generalize mintAfterCanvass t.node (c.nodes t.node) t.docs (t.lookup env c.members) t.counted = done at hcases
  cases hcases with
  | yielded marked notLive wins =>
    refine h.settled (n := (c.nodes t.node).load) ⟨rfl, rfl, ?_, rfl, rfl, fun hlive => ?_⟩
      (fun schema hs => .inl ?_) none rfl (fun i hi => nomatch hi)
    · refine ⟨before, [{ t with counted := false, droppedHere := 0, answers := [], finished := [], withheld := [] }],
        after, hlist, ?_, ?_⟩
      · simp only [setCanvass, setNode, hset]
        simp
      · intro u hu
        rw [mem_singleton.mp hu]
        exact ⟨rfl, rfl, hflight.member, hflight.full, by simp, nodup_nil, rfl⟩
    · rwa [load_schemaFor]
    · rwa [load_durable] at hs
  | refused =>
    refine h.settled (n := (c.nodes t.node).load) ⟨rfl, rfl, ?_, rfl, rfl, fun hlive => ?_⟩
      (fun schema hs => .inl ?_) none rfl (fun i hi => nomatch hi)
    · exact ⟨before, [], after, hlist, by rw [append_nil]; exact herase, by simp⟩
    · rwa [load_schemaFor]
    · rwa [load_durable] at hs
  | ran staged same first =>
    rename_i lookup' n' settlement
    have hends : Ends c (((c.setNode t.node (releaseMint n' t.counted)).dropCanvass k).record
        (settlement.install t.node (c.nodes t.node).dropRecord (t.peerDrops c.members))) t n' := by
      obtain ⟨hmint, hriv⟩ := staged.marks
      exact ⟨rfl, rfl, ⟨before, [], after, hlist, by rw [append_nil]; exact herase, by simp⟩, hmint, hriv, staged.live⟩
    have hadopted : ∀ schema, settlement = .adopted schema → schema.isLive = true ∧
        ∃ m ∈ c.minted, Descends env.parsers m.schema schema := by
      rintro schema rfl
      cases staged with
      | adopted notLive carried =>
        obtain ⟨hsource, -⟩ | hsource := carried
        · cases hsource
        · cases hsource
          obtain hlookup | ⟨rivals, -, hnone⟩ := same
          · exact h.found ht hlookup.symm
          · cases hnone
    by_cases hmints : ∃ schema, settlement = .minted schema
    · obtain ⟨schema, rfl⟩ := hmints
      cases staged with
      | minted full notLive =>
        rename_i droppedAt
        have hlookup : t.lookup env c.members = .noneHeld droppedAt ∨
          ∃ rivals, t.lookup env c.members = .contested rivals :=
          same.imp Eq.symm fun ⟨rivals, hl, _⟩ => ⟨rivals, hl⟩
        have hcounted : t.counted = true := by
          refine may.resolve_right fun ⟨schema, hfound⟩ => ?_
          rcases hlookup with hl | ⟨rivals, hl⟩ <;> cases hfound.symm.trans hl
        obtain ⟨hears, hbeaten⟩ := h.mints ht complete hlookup (first hcounted notLive droppedAt rfl)
        rw [load_schemaFor] at notLive hends ⊢
        have hnot : ¬ c.Live t.node := by
          unfold Live
          rw [notLive]
          decide
        exact h.mint hends ht hcounted complete hnot hears hbeaten (evolveSequential_isLive (mintedSchema_isLive _ _))
          (mint_durable (h.unheld hnot) _ _) rfl rfl rfl rfl
    · have hheld : ∀ schema, n'.durable = some schema → (c.nodes t.node).durable = some schema ∨
          schema.isLive = true ∧ ∃ m ∈ c.minted, Descends env.parsers m.schema schema := by
        intro schema hs
        refine (staged.holds hflight.full (fun s hs => hmints ⟨s, hs⟩) schema hs).imp id ?_
        rintro ⟨from_, rfl, ⟨hdur, hlive⟩ | hadopt⟩
        · obtain ⟨m, hm, hdesc⟩ := h.single.held _ _ hdur hlive
          exact ⟨evolveSequential_isLive hlive, m, hm, .evolved _ hdesc⟩
        · obtain ⟨hlive, m, hm, hdesc⟩ := hadopted from_ hadopt
          exact ⟨evolveSequential_isLive hlive, m, hm, .evolved _ hdesc⟩
      refine h.settled hends hheld _ rfl fun i hi => ?_
      cases settlement with
      | untouched => cases hi
      | evolved => cases hi
      | adopted schema =>
        cases hi
        exact ⟨by simp, (hadopted schema rfl).2⟩
      | minted schema => exact absurd ⟨schema, rfl⟩ hmints

/-- A write that yielded asks again, or is given up: neither has a mark. -/
theorem Race.uncounted (h : c.Race env) (counted : t.counted = false) (hmembers : c'.members = c.members)
    (hnodes : c'.nodes = c.nodes) (hinstalls : c'.installs = c.installs)
    (hcanvasses : ∃ before rest after, c.canvasses = before ++ t :: after ∧ c'.canvasses = before ++ rest ++ after ∧
      ∀ u ∈ rest, u.counted = false ∧ u.answers = [] ∧ u.InFlight c.members) : c'.Race env := by
  refine h.settled (t := t) (n := c.nodes t.node) ⟨hmembers, ?_, hcanvasses, rfl, rfl, id⟩
    (fun schema hs => .inl hs) none hinstalls (fun i hi => nomatch hi)
  rw [counted, hnodes]
  exact (Function.update_eq_self t.node c.nodes).symm

theorem Race.step (h : c.Race env) {e : MintEvent} (first : e.IsFirstWrite) (plain : e.IsPlain)
    (hstep : mintStep env c e = some c') :
    c'.Race env := by
  cases mintStep_cases hstep with
  | write member notLive => exact h.write member plain
  | ask at_ member other fresh =>
    cases first
    exact h.ask at_ member fresh
  | finish at_ answered missed => exact plain.elim
  | settle at_ complete may => exact h.settle at_ complete may
  | retry at_ yielded =>
    rename_i k t
    obtain ⟨before, after, hlist, hset, -⟩ := split_at at_
    have hflight := h.flights _ (mem_of_getElem? at_)
    refine h.uncounted yielded rfl rfl rfl
      ⟨before, [{ t with answers := [], finished := [], withheld := [] }], after, hlist, ?_, fun u hu => ?_⟩
    · exact (hset _).trans (by simp)
    · rw [mem_singleton.mp hu]
      exact ⟨yielded, rfl, hflight.member, hflight.full, by simp, nodup_nil, rfl⟩
  | giveUp at_ yielded =>
    obtain ⟨before, after, hlist, -, herase⟩ := split_at at_
    exact h.uncounted yielded rfl rfl rfl ⟨before, [], after, hlist, by rw [append_nil]; exact herase, by simp⟩
  | forwarded | apply | delete => exact first.elim

end Cluster

/-- In every run of first writes to an index that no node holds, in which every message is delivered, no write comes
    without documents and no peer is told to finish a drop, at most one schema is minted, and every schema a node
    makes live or holds comes from it. -/
theorem one_node_mints (env : ClusterEnv) (c c' : Cluster) (events : List MintEvent) (unheld : c.Unheld)
    (first : ∀ e ∈ events, e.IsFirstWrite) (plain : ∀ e ∈ events, e.IsPlain)
    (hrun : Transition.run (mintStep env) c events = some c') : c'.SingleMint env := by
  have hrace : c'.Race env :=
    Transition.run_invariant (fun _ _ _ h (hok : MintEvent.IsFirstWrite _ ∧ MintEvent.IsPlain _) hstep =>
      h.step hok.1 hok.2 hstep)
      unheld.race (Transition.Along.of_forall (fun e he _ => ⟨first e he, plain e he⟩) c) hrun
  exact hrace.single

/-- Two nodes that never heard of the index. -/
def twoIdle : Cluster := ⟨[1, 2], fun _ => idleNode, [], []⟩

theorem twoIdle_unheld : twoIdle.Unheld where
  nodes _ := ⟨fun _ hs => (nomatch hs), rfl⟩
  canvasses := rfl
  installs := rfl

/-- Both write at once: the first mints, the second yields and adopts. -/
def racedWrites : List MintEvent :=
  [.write 1 titled, .write 2 titled, .ask 0 2 .delivered, .ask 1 1 .delivered, .settle 0,
    .settle 0, .ask 0 1 .delivered, .settle 0]

theorem one_node_mints_racedWrites :
    ∃ c, Transition.run (mintStep plainClusterEnv) twoIdle racedWrites = some c ∧
      (c.installs.map fun i => (i.node, i.origin, i.schema.version)) = [(2, .adopted, 1), (1, .minted, 1)] ∧
      c.SingleMint plainClusterEnv := by
  have h : ∃ c, Transition.run (mintStep plainClusterEnv) twoIdle racedWrites = some c ∧
      (c.installs.map fun i => (i.node, i.origin, i.schema.version)) = [(2, .adopted, 1), (1, .minted, 1)] := by
    decide +kernel
  obtain ⟨c, hrun, hmade⟩ := h
  exact ⟨c, hrun, hmade, one_node_mints plainClusterEnv twoIdle c racedWrites twoIdle_unheld
    (by simp [racedWrites, MintEvent.IsFirstWrite]) (by simp [racedWrites, MintEvent.IsPlain, titled]) hrun⟩

def noDocs : WriteDocs := ⟨true, [], true, true⟩

def authored : WriteDocs := ⟨false, [("author", .text)], true, true⟩

/-- After an empty bulk write the first node has an empty schema cached, and answers with it while it is minting.
    The second node then does not hear of the race, and both mint version `1`. -/
def emptyBulkFirst : List MintEvent :=
  [.write 1 noDocs, .ask 0 2 .delivered, .settle 0,
    .write 1 titled, .ask 0 2 .delivered, .write 2 authored, .ask 1 1 .delivered, .settle 0, .settle 0]

theorem two_nodes_mint :
    (∀ e ∈ emptyBulkFirst, e.IsFirstWrite) ∧ twoIdle.Unheld ∧
      ∃ c, Transition.run (mintStep plainClusterEnv) twoIdle emptyBulkFirst = some c ∧
        (c.installs.map fun i => (i.node, i.origin, i.schema.version, i.schema.fields.keys)) =
          [(2, .minted, 1, ["author", "id"]), (1, .minted, 1, ["id", "title"])] ∧ ¬ c.SingleMint plainClusterEnv := by
  refine ⟨by simp [emptyBulkFirst, MintEvent.IsFirstWrite], twoIdle_unheld, ?_⟩
  have h : ∃ c, Transition.run (mintStep plainClusterEnv) twoIdle emptyBulkFirst = some c ∧
      (c.installs.map fun i => (i.node, i.origin, i.schema.version, i.schema.fields.keys)) =
        [(2, .minted, 1, ["author", "id"]), (1, .minted, 1, ["id", "title"])] ∧ c.minted.length = 2 := by
    decide +kernel
  obtain ⟨c, hrun, hmade, htwo⟩ := h
  exact ⟨c, hrun, hmade, fun hsingle => absurd hsingle.once (by omega)⟩

end CameoDb
