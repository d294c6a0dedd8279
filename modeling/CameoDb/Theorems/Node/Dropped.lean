import CameoDb.Theorems.Node.Rounds

/-! # A dropped index and the schemas made live after it

Whatever makes a schema live compares versions with a drop, but not always with every drop that matters: see
`MintEvent.GoesAbove`. -/

namespace CameoDb
open List

/-- A schema made live above every drop: the one this node had recorded and those of the peers that answered. None
    of them counts it as an index they removed. -/
def Install.AboveDrops (install : Install) : Prop :=
  ∀ d ∈ install.ownDrop.toList ++ install.peerDrops, d < install.schema.version ∧ install.schema.droppedBy d = false

theorem Install.aboveDrops_of {install : Install} (own : ∀ d, install.ownDrop = some d → d < install.schema.version)
    (peers : ∀ d ∈ install.peerDrops, d < install.schema.version) : install.AboveDrops := by
  intro d hd
  have hlt : d < install.schema.version := by
    rcases mem_append.mp hd with hd | hd
    · exact own d (Option.mem_toList.mp hd)
    · exact peers d hd
  exact ⟨hlt, by simp [IndexSchema.droppedBy, hlt]⟩

section Sound
variable (env : ClusterEnv)

/-- Where settling a canvass goes above every drop. The one that lost a race asks again without its own drop. The
    one that won it forgets the drops it heard of. A peer that is minting does not tell of its own. A version is a
    `u64` and starts at `1`. -/
def PeerSchemaLookup.GoesAbove (node : NodeState) (askedAbove : Nat) (peerDrops withheld : List Nat) :
    PeerSchemaLookup → Prop
  | found schema =>
    (node.droppedHere ≤ askedAbove ∨ node.droppedHere < schema.version) ∧ ∀ d ∈ withheld, d < schema.version
  | noneHeld droppedAt => 0 < node.schemaFor.version ∧ max node.droppedHere droppedAt + 1 < u64Limit
  | contested _ =>
    0 < node.schemaFor.version ∧ node.droppedHere + 1 < u64Limit ∧ ∀ d ∈ peerDrops, d ≤ node.droppedHere
  | unreachable => True

def Canvass.GoesAbove (c : Cluster) (canvass : Canvass) : Prop :=
  (canvass.lookup env c.members).GoesAbove (c.nodes canvass.node) canvass.droppedHere (canvass.peerDrops c.members)
    canvass.withheld

/-- The events whose version checks are enough. A peer that finishes a drop records it no higher than the drop it
    was told of; a schema a forwarded write carries, and a change, are not at or below what the node has recorded. -/
def MintEvent.GoesAbove (c : Cluster) : MintEvent → Prop
  | settle k => ∀ canvass ∈ c.canvasses[k]?, canvass.GoesAbove env c
  | finish k peer _ => ∀ canvass ∈ c.canvasses[k]?,
    (orchFinishDrop (c.nodes peer) (canvass.counts env c.members).droppedAt).2.droppedHere ≤
      (canvass.counts env c.members).droppedAt
  | forwarded node _ (some body) => ∀ d ∈ (c.nodes node).dropRecord, d < body.version
  | apply node schema _ => (c.nodes node).dropRecord ≠ some schema.version
  | _ => True

end Sound

section Invariant
variable {env : ClusterEnv} {c c' : Cluster}
  {node : NodeState} {d : Nat} {canvass : Canvass} {members : List NodeId} {k : Nat} {peer : NodeId}
      {delivery : Delivery}

theorem NodeState.droppedHere_of_dropRecord (h : node.dropRecord = some d) : node.droppedHere = d := by
  obtain ⟨schema, hfilter, rfl⟩ := Option.map_eq_some_iff.mp h
  obtain ⟨hdurable, hdrop⟩ := Option.filter_eq_some_iff.mp hfilter
  rw [NodeState.droppedHere, hdurable, dropRecordVersion, if_pos hdrop]

/-- A canvass in flight. A peer finishes a drop only once every peer has answered, and one that keeps its drop to
    itself is heard of as a rival. -/
structure Canvass.Within (env : ClusterEnv) (members : List NodeId) (canvass : Canvass) : Prop where
  told : ∀ d ∈ canvass.toldDrops, d ≤ (canvass.counts env members).droppedAt
  late : canvass.finished ≠ [] → canvass.allAnswered members = true
  silent : canvass.withheld ≠ [] → ∃ peer ∈ members, canvass.answers.find? (fun a => a.1 = peer) = some (peer, .minting)

theorem Canvass.Within.start (h : canvass.finished = [])
    (silent : canvass.withheld ≠ [] → ∃ peer ∈ members, canvass.answers.find? (fun a => a.1 = peer) =
    some (peer, .minting)) : canvass.Within env members :=
  ⟨fun d hd => by simp [Canvass.toldDrops, h] at hd, fun hne => absurd h hne, silent⟩

theorem Canvass.Within.peerDrops_le (h : canvass.Within env members) (hd : d ∈ canvass.peerDrops members) :
    d ≤ (canvass.counts env members).droppedAt ∨ d ∈ canvass.withheld := by
  rcases mem_append.mp hd with hd | hd
  · refine .inl ?_
    rcases mem_append.mp hd with hd | hd
    · exact heardDrops_le_countCanvass hd
    · exact h.told d hd
  · exact .inr hd

theorem Canvass.Within.withheld_nil (h : canvass.Within env members)
    (hrivals : heardRivals (canvass.inOrder members) = []) : canvass.withheld = [] := by
  by_contra hne
  obtain ⟨peer, hpeer, hfind⟩ := h.silent hne
  have hrival : peer ∈ heardRivals (canvass.inOrder members) :=
    mem_filterMap.mpr ⟨_, mem_filterMap.mpr ⟨peer, hpeer, hfind⟩, rfl⟩
  rw [hrivals] at hrival
  cases hrival

/-- Nothing is installed below a drop its canvass heard of. -/
structure Cluster.AboveDrops (env : ClusterEnv) (c : Cluster) : Prop where
  installs : ∀ install ∈ c.installs, install.AboveDrops
  canvasses : ∀ canvass ∈ c.canvasses, canvass.Within env c.members

theorem Cluster.AboveDrops.record (h : c.AboveDrops env) {install : Option Install}
    (hnew : ∀ i, install = some i → i.AboveDrops) : (c.record install).AboveDrops env := by
  refine ⟨fun i hi => ?_, h.canvasses⟩
  rcases mem_append.mp hi with hi | hi
  · exact hnew i (Option.mem_toList.mp hi)
  · exact h.installs i hi

theorem Cluster.AboveDrops.setNode (h : c.AboveDrops env) (node : NodeId) (n : NodeState) :
    (c.setNode node n).AboveDrops env := ⟨h.installs, h.canvasses⟩

theorem Cluster.AboveDrops.setCanvass (h : c.AboveDrops env) (hcanvass : canvass.Within env c.members) :
    (c.setCanvass k canvass).AboveDrops env := by
  refine ⟨h.installs, fun other hother => ?_⟩
  rcases mem_or_eq_of_mem_set hother with hother | rfl
  · exact h.canvasses other hother
  · exact hcanvass

theorem Cluster.AboveDrops.dropCanvass (h : c.AboveDrops env) (k : Nat) : (c.dropCanvass k).AboveDrops env :=
  ⟨h.installs, fun canvass hmem => h.canvasses canvass (mem_of_mem_eraseIdx hmem)⟩

theorem lt_nextVersion {version : Nat} (h : version + 1 < u64Limit) : version < nextVersion version := by
  unfold nextVersion
  omega

theorem mintedSchema_above {peerDroppedAt d : Nat} (positive : 0 < node.schemaFor.version)
    (fits : max node.droppedHere peerDroppedAt + 1 < u64Limit) (hd : d ≤ max node.droppedHere peerDroppedAt) :
    d < (mintedSchema node.schemaFor peerDroppedAt).version := by
  rw [mintedSchema_version, dropRecordVersion_schemaFor]
  have hnext := lt_nextVersion fits
  split <;> omega

theorem settleCanvass_above (hwithin : canvass.Within env c.members) (hsound : canvass.GoesAbove env c)
    {lookup' : PeerSchemaLookup} {n' : NodeState} {settlement : Settlement} {install : Install}
    (staged : Staged (c.nodes canvass.node).load canvass.docs (.canvassed lookup') n' settlement)
    (same : lookup' = canvass.lookup env c.members ∨
      ∃ rivals, canvass.lookup env c.members = .contested rivals ∧ lookup' = .noneHeld 0)
    (hinstall : settlement.install canvass.node (c.nodes canvass.node).dropRecord
    (canvass.peerDrops c.members) = some install) : install.AboveDrops := by
  cases staged with
  | untouched empty | kept live | evolved live => cases hinstall
  | adopted notLive carried =>
    cases hinstall
    obtain ⟨hsource, -⟩ | hsource := carried
    · cases hsource
    · cases hsource
      obtain hlookup | ⟨rivals, -, hnone⟩ := same
      · obtain ⟨peer, -, habove⟩ := peerSchemaFor_found hlookup.symm
        rw [Canvass.GoesAbove, ← hlookup] at hsound
        refine Install.aboveDrops_of (fun d hown => ?_) (fun d hd => ?_)
        · have hhere := NodeState.droppedHere_of_dropRecord hown
          have hcounted := @droppedHere_le_countCanvass env canvass.droppedHere (canvass.inOrder c.members)
          obtain ⟨hsound, -⟩ := hsound
          dsimp only
          omega
        · rcases hwithin.peerDrops_le hd with hle | hmem
          · exact hle.trans_lt habove
          · exact hsound.2 d hmem
      · cases hnone
  | minted full notLive =>
    rename_i droppedAt
    cases hinstall
    rw [NodeState.load_schemaFor]
    have hown : ∀ d, (c.nodes canvass.node).dropRecord = some d →
        d ≤ max (c.nodes canvass.node).droppedHere droppedAt := by
      intro d hd
      rw [← NodeState.droppedHere_of_dropRecord hd]
      exact Nat.le_max_left _ _
    suffices hall : 0 < (c.nodes canvass.node).schemaFor.version ∧
        max (c.nodes canvass.node).droppedHere droppedAt + 1 < u64Limit ∧
        ∀ d ∈ canvass.peerDrops c.members, d ≤ max (c.nodes canvass.node).droppedHere droppedAt by
      obtain ⟨hpositive, hfits, hpeers⟩ := hall
      refine Install.aboveDrops_of (fun d hd => ?_) (fun d hd => ?_) <;> dsimp only <;>
        rw [(evolveSequential_spec _ _ _).1]
      · exact mintedSchema_above hpositive hfits (hown d hd)
      · exact mintedSchema_above hpositive hfits (hpeers d hd)
    obtain hlookup | ⟨rivals, hlookup, hnone⟩ := same
    · rw [Canvass.GoesAbove, ← hlookup] at hsound
      obtain ⟨hpositive, hfits⟩ := hsound
      refine ⟨hpositive, hfits, fun d hd => ?_⟩
      obtain ⟨hcounted, hrivals⟩ := peerSchemaFor_noneHeld hlookup.symm
      have hcount : d ≤ droppedAt := by
        rcases hwithin.peerDrops_le hd with hle | hmem
        · exact hcounted ▸ hle
        · rw [hwithin.withheld_nil hrivals] at hmem
          cases hmem
      exact hcount.trans (Nat.le_max_right _ _)
    · cases hnone
      rw [Canvass.GoesAbove, hlookup] at hsound
      simpa [PeerSchemaLookup.GoesAbove] using hsound

theorem orchApplySchema_stored (me : NodeId) (node : NodeState) (schema : IndexSchema) (world : ApplyWorld) :
    (orchApplySchema env me node schema world).2.stored = node.stored ∨
      ∃ made, (orchApplySchema env me node schema world).2.stored = some made ∧ made.version = schema.version ∧
        ∀ d, node.dropRecord = some d → d ≤ schema.version := by
  have hcases := orchApplySchema_cases env me node schema world
  generalize orchApplySchema env me node schema world = done at hcases ⊢
  cases hcases with
  | invalid | kept answer | same hcurrent hversion hsame => exact .inl rfl
  | stored hdeclared hnewest =>
    refine .inr ⟨_, storeChange_stored _, mergedInto_version hdeclared, fun d hd => ?_⟩
    obtain ⟨record, hfilter, rfl⟩ := Option.map_eq_some_iff.mp hd
    exact hnewest record (Option.filter_eq_some_iff.mp hfilter).1

/-! ### Runs -/

theorem Cluster.AboveDrops.ask (h : c.AboveDrops env) (at_ : c.canvasses[k]? = some canvass) (member : peer ∈ c.members)
    (other : peer ≠ canvass.node) (fresh : canvass.hasAnswered peer = false) :
    (c.askPeer k canvass peer delivery).AboveDrops env := by
  -- A drop is finished only once every peer answered, and this one has not.
  have hnone : canvass.finished = [] := by
    by_contra hne
    have hall := (h.canvasses canvass (mem_of_getElem? at_)).late hne
    have hpeer := all_eq_true.mp hall peer member
    simp [other, fresh] at hpeer
  have hold := (h.canvasses canvass (mem_of_getElem? at_)).silent
  have hkept (a : PeerAnswer) (hne : canvass.withheld ≠ []) : ∃ p ∈ c.members,
      (canvass.answers ++ [(peer, a)]).find? (fun a => a.1 = p) = some (p, .minting) := by
    obtain ⟨p, hp, hfind⟩ := hold hne
    exact ⟨p, hp, by rw [find?_append, hfind, Option.some_or]⟩
  unfold Cluster.askPeer
  cases delivery with
  | delivered =>
    refine (h.setNode peer _).setCanvass (Canvass.Within.start hnone fun hne => ?_)
    rcases not_and_or.mp (mt append_eq_nil_iff.mpr hne) with hne | hne
    · exact hkept _ hne
    · -- Only a node that is minting withholds its record, and it has not answered before.
      have hfirst : canvass.answers.find? (fun a => a.1 = peer) = none := by simpa [Canvass.hasAnswered] using fresh
      refine ⟨peer, member, ?_⟩
      dsimp only
      generalize (rawSchemaForPeer (c.nodes peer) canvass.mintingBy).1 = raw at hne ⊢
      cases raw with
      | schema | null => exact absurd rfl hne
      | beingMinted => simp [find?_append, hfirst, RawAnswer.heard]
  | answerLost => exact (h.setNode peer _).setCanvass (Canvass.Within.start hnone (hkept _))
  | lost => exact h.setCanvass (Canvass.Within.start hnone (hkept _))

theorem Cluster.AboveDrops.finish (h : c.AboveDrops env) (at_ : c.canvasses[k]? = some canvass)
    (answered : canvass.allAnswered c.members = true)
    (sound : (orchFinishDrop (c.nodes peer) (canvass.counts env c.members).droppedAt).2.droppedHere ≤
      (canvass.counts env c.members).droppedAt) : (c.finishPeer env k canvass peer delivery).AboveDrops env := by
  have hold := h.canvasses canvass (mem_of_getElem? at_)
  have hnew : ∀ told, (∀ d, told = FinishTold.told d → d ≤ (canvass.counts env c.members).droppedAt) →
      Canvass.Within env c.members { canvass with finished := canvass.finished ++ [(peer, told)] } := by
    intro told htold
    refine ⟨fun d hd => ?_, fun _ => answered, hold.silent⟩
    rw [Canvass.toldDrops, filterMap_append, mem_append] at hd
    rcases hd with hd | hd
    · exact hold.told d hd
    · cases told with
      | told droppedAt =>
        obtain rfl : d = droppedAt := by simpa using hd
        exact htold d rfl
      | untold => simp at hd
  unfold Cluster.finishPeer
  cases delivery with
  | delivered =>
    refine (h.setNode peer _).setCanvass (hnew _ fun d hd => ?_)
    cases hd
    exact sound
  | answerLost => exact (h.setNode peer _).setCanvass (hnew _ fun d hd => nomatch hd)
  | lost => exact h.setCanvass (hnew _ fun d hd => nomatch hd)

theorem Cluster.AboveDrops.settle (h : c.AboveDrops env) (at_ : c.canvasses[k]? = some canvass)
    (sound : canvass.GoesAbove env c) : (c.settleCanvass env k canvass).AboveDrops env := by
  have hcases := mintAfterCanvass_cases canvass.node (c.nodes canvass.node) canvass.docs (canvass.lookup env c.members)
    canvass.counted
  unfold Cluster.settleCanvass
  dsimp only
  generalize mintAfterCanvass canvass.node (c.nodes canvass.node) canvass.docs (canvass.lookup env c.members)
    canvass.counted = done at hcases
  cases hcases with
  | yielded marked notLive wins => exact (h.setNode _ _).setCanvass (Canvass.Within.start rfl fun hne => absurd rfl hne)
  | refused => exact ((h.setNode _ _).dropCanvass k).record (fun i hi => nomatch hi)
  | ran staged same first =>
    refine ((h.setNode _ _).dropCanvass k).record (fun i hi => ?_)
    exact settleCanvass_above (h.canvasses canvass (mem_of_getElem? at_)) sound staged same hi

theorem Cluster.AboveDrops.forwarded (h : c.AboveDrops env) {node : NodeId} {docs : WriteDocs}
    {body : Option IndexSchema}
    (sound : (MintEvent.forwarded node docs body).GoesAbove env c) :
    (c.forwardedWrite node docs body).AboveDrops env := by
  unfold Cluster.forwardedWrite
  split
  · rename_i n settlement hok
    refine (h.setNode _ _).record (fun i hi => ?_)
    cases stagedSchemaValidation_cases hok with
    | untouched empty => cases hi
    | kept live => cases hi
    | evolved live => cases hi
    | adopted notLive carried =>
      cases hi
      obtain ⟨hsource, -⟩ | hsource := carried
      · cases hsource
        exact Install.aboveDrops_of sound (fun d hd => nomatch hd)
      · cases hsource
  · exact h.setNode _ _

theorem Cluster.AboveDrops.apply (h : c.AboveDrops env) {node : NodeId} {schema : IndexSchema} {world : ApplyWorld}
    (sound : (c.nodes node).dropRecord ≠ some schema.version) :
    (c.applyChange env node schema world).AboveDrops env := by
  unfold Cluster.applyChange
  refine (h.setNode _ _).record (fun i hi => ?_)
  obtain ⟨made, hmade, rfl⟩ := Option.map_eq_some_iff.mp hi
  split at hmade
  · cases hmade
  · rename_i hchanged
    rcases @orchApplySchema_stored env node (c.nodes node) schema world with hsame | ⟨stored, hstored, hversion, hdrops⟩
    · exact absurd hsame hchanged
    · cases hmade.symm.trans hstored
      refine Install.aboveDrops_of (fun d hd => ?_) (fun d hd => nomatch hd)
      have hle := hdrops d hd
      have hne : d ≠ schema.version := fun heq => sound (heq ▸ hd)
      dsimp only
      omega

theorem Cluster.AboveDrops.step (h : c.AboveDrops env) {e : MintEvent} (sound : e.GoesAbove env c)
    (hstep : mintStep env c e = some c') : c'.AboveDrops env := by
  cases mintStep_cases hstep with
  | write member notLive =>
    refine ⟨h.installs, fun canvass hmem => ?_⟩
    rcases mem_append.mp hmem with hmem | hmem
    · exact h.canvasses canvass hmem
    · rw [mem_singleton.mp hmem]
      exact Canvass.Within.start rfl fun hne => absurd rfl hne
  | ask at_ member other fresh => exact h.ask at_ member other fresh
  | finish at_ answered missed => exact h.finish at_ answered (sound _ at_)
  | settle at_ complete may => exact h.settle at_ (sound _ at_)
  | retry at_ yielded => exact h.setCanvass (Canvass.Within.start rfl fun hne => absurd rfl hne)
  | giveUp at_ yielded => exact h.dropCanvass _
  | forwarded => exact h.forwarded sound
  | apply => exact h.apply sound
  | delete => exact h.setNode _ _

/-- In every run whose events go above the drops, from a cluster whose nodes hold any schemas and any records of
    drops, every schema a node makes live is above the drop it has recorded and above those of every peer that
    answered it. -/
theorem dropped_not_resurrected (env : ClusterEnv) (c c' : Cluster) (events : List MintEvent)
    (idle : c.canvasses = []) (unwritten : c.installs = [])
    (sound : Transition.Along (mintStep env) (MintEvent.GoesAbove env) c events)
    (hrun : Transition.run (mintStep env) c events = some c') : ∀ install ∈ c'.installs, install.AboveDrops := by
  have hstart : c.AboveDrops env := ⟨by simp [unwritten], by simp [idle]⟩
  have hend : c'.AboveDrops env :=
    Transition.run_invariant (fun _ _ _ h hsound hstep => h.step hsound hstep) hstart sound hrun
  exact hend.installs

end Invariant

/-! ### Three nodes, of which one has recorded a drop -/

instance (install : Install) : Decidable install.AboveDrops :=
  inferInstanceAs (Decidable (∀ d ∈ _, _))

instance (node : NodeState) (askedAbove : Nat) (peerDrops withheld : List Nat) :
    ∀ lookup : PeerSchemaLookup, Decidable (lookup.GoesAbove node askedAbove peerDrops withheld)
  | .found _ => inferInstanceAs (Decidable (_ ∧ _))
  | .noneHeld _ => inferInstanceAs (Decidable (_ ∧ _))
  | .contested _ => inferInstanceAs (Decidable (_ ∧ _ ∧ _))
  | .unreachable => .isTrue trivial

instance (env : ClusterEnv) (c : Cluster) (canvass : Canvass) : Decidable (canvass.GoesAbove env c) :=
  inferInstanceAs (Decidable (PeerSchemaLookup.GoesAbove _ _ _ _ _))

instance (env : ClusterEnv) (c : Cluster) : ∀ e : MintEvent, Decidable (e.GoesAbove env c)
  | .settle _ => inferInstanceAs (Decidable (∀ canvass ∈ _, Canvass.GoesAbove _ _ _))
  | .finish .. => inferInstanceAs (Decidable (∀ canvass ∈ _, _))
  | .forwarded _ _ (some _) => inferInstanceAs (Decidable (∀ d ∈ _, _))
  | .forwarded _ _ none => .isTrue trivial
  | .apply .. => inferInstanceAs (Decidable (_ ≠ _))
  | .write .. => .isTrue trivial
  | .ask .. => .isTrue trivial
  | .retry _ => .isTrue trivial
  | .giveUp _ => .isTrue trivial
  | .delete _ => .isTrue trivial

def droppedAtThree : Cluster :=
  let record : IndexSchema := { IndexSchema.default with state := .dropped, version := 7 }
  ⟨[1, 2, 3], fun node => if node = 3 then { idleNode with stored := some record } else idleNode, [], []⟩

/-- Nodes `1` and `2` write at once. The first hears that the second is minting the index too and that the third has
    recorded its drop; it wins the race, and mints version `1`, which the third node reads as dropped. -/
theorem contested_mint_resurrects :
    ∃ c, Transition.run (mintStep plainClusterEnv) droppedAtThree
        [.write 1 titled, .write 2 titled, .ask 0 2 .delivered, .ask 0 3 .delivered, .settle 0] = some c ∧
      ∃ install ∈ c.installs, install.node = 1 ∧ install.origin = .minted ∧ install.schema.version = 1 ∧
        7 ∈ install.peerDrops ∧ ¬ install.AboveDrops := by
  decide +kernel

/-- The first node alone hears of the drop and goes above it; the second then adopts what it minted. -/
def mintThenAdopt : List MintEvent :=
  [.write 1 titled, .ask 0 2 .delivered, .ask 0 3 .delivered, .settle 0,
    .write 2 titled, .ask 0 1 .delivered, .ask 0 3 .delivered, .settle 0]

theorem dropped_not_resurrected_mintThenAdopt :
    ∃ c, Transition.run (mintStep plainClusterEnv) droppedAtThree mintThenAdopt = some c ∧
      (c.installs.map fun i => (i.node, i.origin, i.schema.version)) = [(2, .adopted, 8), (1, .minted, 8)] ∧
      ∀ install ∈ c.installs, install.AboveDrops := by
  have h : ∃ c, Transition.run (mintStep plainClusterEnv) droppedAtThree mintThenAdopt = some c ∧
      (c.installs.map fun i => (i.node, i.origin, i.schema.version)) = [(2, .adopted, 8), (1, .minted, 8)] := by
    decide +kernel
  obtain ⟨c, hrun, hmade⟩ := h
  exact ⟨c, hrun, hmade, dropped_not_resurrected plainClusterEnv droppedAtThree c mintThenAdopt rfl rfl
    (by decide +kernel) hrun⟩

end CameoDb
