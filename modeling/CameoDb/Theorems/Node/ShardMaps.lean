import CameoDb.Node.ShardMap

/-! # Shard maps only gain

A map has all of its sender's shards that were registered when it was taken. Merged after one that got there some
other way it removes that one again. -/

namespace CameoDb
open List Function ShardCluster Coordinator Std

/-- The map only has registered shards, with their own metadata. -/
def Genuine (env : ShardMapEnv) (registered : List (NodeId × ShardId)) (map : ShardAssignments) : Prop :=
  ∀ (shard : ShardId) (info : ShardMetadata), map[shard]? = some info →
    ∃ node, (node, shard) ∈ registered ∧ info = env.shardMetadata node shard

/-- No shard is registered by two nodes. -/
def OneOwner (registered : List (NodeId × ShardId)) : Prop :=
  ∀ a b shard, (a, shard) ∈ registered → (b, shard) ∈ registered → a = b

section Maps
variable {env : ShardMapEnv} {registered registered' : List (NodeId × ShardId)}
  {map : ShardAssignments} {shard : ShardId}

theorem Genuine.mono (h : Genuine env registered map) (hsub : ∀ r ∈ registered, r ∈ registered') :
    Genuine env registered' map := by
  intro shard info hinfo
  obtain ⟨node, hnode, rfl⟩ := h shard info hinfo
  exact ⟨node, hsub _ hnode, rfl⟩

theorem Genuine.entry (h : Genuine env registered map) (hone : OneOwner registered) {node : NodeId}
    (hnode : (node, shard) ∈ registered) (hcontains : map.contains shard = true) :
    map[shard]? = some (env.shardMetadata node shard) := by
  rw [ExtTreeMap.contains_eq_isSome_getElem?] at hcontains
  obtain ⟨info, hinfo⟩ := Option.isSome_iff_exists.mp hcontains
  obtain ⟨owner, howner, rfl⟩ := h shard info hinfo
  rw [hinfo, hone owner node shard howner hnode]

end Maps

/-! ### What a merge does -/

section Merge
variable {env : ShardMapEnv} {c : Coordinator} {msg : MergeRemoteShards} {shard : ShardId}

theorem trackSender_same : (c.trackSender msg).shardAssignments = c.shardAssignments ∧
    (c.trackSender msg).ring = c.ring := by
  grind [trackSender]

theorem takeShards_map : (c.takeShards env msg).shardAssignments =
    (c.shardAssignments.filter fun shard known => !dropped msg shard known) ∪ msg.shards := by
  simp only [takeShards]
  split <;> rfl

theorem merge_skipped (h : env.checksum c.shardAssignments = msg.shardChecksum) :
    (c.mergeRemoteShards env msg).shardAssignments = c.shardAssignments ∧
    (c.mergeRemoteShards env msg).ring = c.ring := by
  grind [mergeRemoteShards, syncGenerationIfNeeded]

theorem merge_getElem? (h : env.checksum c.shardAssignments ≠ msg.shardChecksum) :
    (c.mergeRemoteShards env msg).shardAssignments[shard]? =
      msg.shards[shard]?.or (c.shardAssignments[shard]?.filter fun known => known.nodeId ≠ msg.nodeId) := by
  rw [mergeRemoteShards, if_neg h, takeShards_map, trackSender_same.1, ExtTreeMap.getElem?_union,
    ExtTreeMap.getElem?_filter']
  cases hmsg : msg.shards[shard]? <;> cases c.shardAssignments[shard]? <;>
    simp [dropped, ExtTreeMap.contains_eq_isSome_getElem?, hmsg, Option.filter]

end Merge

/-! ### Every run -/

/-- A message is its sender's map when `taken` were registered. -/
structure Sent (env : ShardMapEnv) (registered : List (NodeId × ShardId)) (m : MapMessage) : Prop where
  other : m.target ≠ m.msg.nodeId
  taken : m.taken ≤ registered.length
  genuine : Genuine env (registered.take m.taken) m.msg.shards
  own : ∀ shard, (m.msg.nodeId, shard) ∈ registered.take m.taken → m.msg.shards.contains shard = true

/-- The invariant of the maps and the messages in flight. -/
structure ShardCluster.Sound (env : ShardMapEnv) (s : ShardCluster) : Prop where
  oneOwner : OneOwner s.registered
  genuine : ∀ node, Genuine env s.registered (s.map node)
  own : ∀ node shard, (node, shard) ∈ s.registered → (s.map node).contains shard = true
  sent : ∀ m ∈ s.inFlight, Sent env s.registered m

section Steps
variable {env : ShardMapEnv} {s s' : ShardCluster}

inductive MapCases (env : ShardMapEnv) (s : ShardCluster) : MapStep → ShardCluster → Prop
  | registered {node shards} (free : ∀ other shard, (other, shard) ∈ s.registered → shard ∈ shards → other = node) :
    MapCases env s (.register node shards) { s with
      nodes := update s.nodes node ((s.nodes node).registerLocalShards env (shards.map (env.shardMetadata node)))
      registered := s.registered ++ shards.map fun shard => (node, shard) }
  | sent {e m} (sends : ∀ i, e ≠ .merge i) (other : m.target ≠ m.msg.nodeId) (taken : m.taken = s.registered.length)
    (map : m.msg.shards = s.map m.msg.nodeId) : MapCases env s e { s with inFlight := s.inFlight ++ [m] }
  | merged {i m} (found : s.inFlight[i]? = some m) : MapCases env s (.merge i) { s with
      nodes := update s.nodes m.target ((s.nodes m.target).mergeRemoteShards env m.msg)
      inFlight := s.inFlight.eraseIdx i
      pulls := if m.isPull then (m.target, m.msg.nodeId, m.taken) :: s.pulls else s.pulls }
  | lost (i : Nat) : MapCases env s (.lose i) { s with inFlight := s.inFlight.eraseIdx i }

variable {e : MapStep} {shard : ShardId} {node : NodeId} {shards : List ShardId} {m : MapMessage}

theorem mapStep_cases (hstep : s.step env e = some s') : MapCases env s e s' := by
  cases e <;> simp only [ShardCluster.step] at hstep <;> split at hstep <;> cases hstep
  · exact .registered (by grind)
  · exact .sent nofun ‹_› rfl rfl
  · exact .sent nofun (Ne.symm ‹_›) rfl rfl
  · exact .merged ‹_›
  · exact .lost _

theorem contains_iff {map : ShardAssignments} : map.contains shard = true ↔ ∃ info, map[shard]? = some info := by
  rw [ExtTreeMap.contains_eq_isSome_getElem?, Option.isSome_iff_exists]

theorem register_getElem? {c : Coordinator} :
    (c.registerLocalShards env (shards.map (env.shardMetadata node))).shardAssignments[shard]? =
      if shard ∈ shards then some (env.shardMetadata node shard) else c.shardAssignments[shard]? := by
  have hfold (map : ShardAssignments) :
      ((shards.map (env.shardMetadata node)).foldl (fun map info => map.insert info.shardId info) map)[shard]? =
        if shard ∈ shards then some (env.shardMetadata node shard) else map[shard]? := by
    induction shards generalizing map with
    | nil => rfl
    | cons first rest ih =>
      rw [map_cons, foldl_cons, ih, ExtTreeMap.getElem?_insert]
      simp only [ShardMapEnv.shardMetadata, Std.compare_eq_iff_eq, mem_cons]
      grind
  exact hfold c.shardAssignments

theorem Sent.mono {registered more : List (NodeId × ShardId)} (h : Sent env registered m) :
    Sent env (registered ++ more) m := by
  have htake : (registered ++ more).take m.taken = registered.take m.taken := take_append_of_le_length h.taken
  refine ⟨h.other, ?_, ?_, ?_⟩
  · rw [length_append]
    exact Nat.le_add_right_of_le h.taken
  · rw [htake]
    exact h.genuine
  · rw [htake]
    exact h.own

theorem ShardCluster.Sound.register (h : s.Sound env)
    (hfree : ∀ other shard, (other, shard) ∈ s.registered → shard ∈ shards → other = node) :
    ({ s with
      nodes := update s.nodes node ((s.nodes node).registerLocalShards env (shards.map (env.shardMetadata node)))
      registered := s.registered ++ shards.map fun shard => (node, shard) } : ShardCluster).Sound env := by
  have hmap (other : NodeId) (shard : ShardId) :
      (update s.nodes node ((s.nodes node).registerLocalShards env (shards.map (env.shardMetadata node))) other
        ).shardAssignments[shard]? = if other = node ∧ shard ∈ shards then some (env.shardMetadata node shard)
          else (s.map other)[shard]? := by
    by_cases hother : other = node
    · subst hother
      rw [update_self, register_getElem?]
      simp [map]
    · rw [update_of_ne hother]
      simp [map, hother]
  refine ⟨?_, fun other shard info hinfo => ?_, fun other shard hregistered => ?_, fun m hm => (h.sent m hm).mono⟩
  · have hone := h.oneOwner
    grind [OneOwner]
  · have hinfo := (hmap other shard).symm.trans hinfo
    split at hinfo
    · rename_i hnew
      cases hinfo
      exact ⟨node, mem_append_right _ (mem_map.mpr ⟨shard, hnew.2, rfl⟩), rfl⟩
    · exact (h.genuine other).mono (fun r hr => mem_append_left _ hr) shard info hinfo
  · rw [contains_iff, map, hmap]
    have hown := h.own other shard
    rw [contains_iff] at hown
    split_ifs with hnew
    · exact ⟨_, rfl⟩
    · exact hown (by grind)

theorem ShardCluster.Sound.merge_contains (h : s.Sound env) (hm : m ∈ s.inFlight)
    (hcontains : (s.map m.target).contains shard = true)
    (hkept : (m.msg.nodeId, shard) ∈ s.registered → (m.msg.nodeId, shard) ∈ s.registered.take m.taken) :
    ((s.nodes m.target).mergeRemoteShards env m.msg).shardAssignments.contains shard = true := by
  by_cases hskipped : env.checksum (s.nodes m.target).shardAssignments = m.msg.shardChecksum
  · rw [(merge_skipped hskipped).1]
    exact hcontains
  · rw [contains_iff, merge_getElem? hskipped]
    cases hmsg : m.msg.shards[shard]? with
    | some info => exact ⟨info, rfl⟩
    | none =>
      obtain ⟨info, hinfo⟩ := contains_iff.mp hcontains
      obtain ⟨owner, howner, rfl⟩ := h.genuine m.target shard info hinfo
      have hother : owner ≠ m.msg.nodeId := by
        rintro rfl
        obtain ⟨info, hown⟩ := contains_iff.mp ((h.sent m hm).own shard (hkept howner))
        cases hmsg.symm.trans hown
      rw [show (s.nodes m.target).shardAssignments[shard]? = _ from hinfo]
      simp [Option.filter, ShardMapEnv.shardMetadata, hother]

theorem ShardCluster.Sound.merge_removes (h : s.Sound env) (hm : m ∈ s.inFlight)
    (hchecksum : env.checksum (s.map m.target) ≠ m.msg.shardChecksum)
    (hregistered : (m.msg.nodeId, shard) ∈ s.registered)
    (hlate : (m.msg.nodeId, shard) ∉ s.registered.take m.taken) :
    ((s.nodes m.target).mergeRemoteShards env m.msg).shardAssignments.contains shard = false := by
  rw [ExtTreeMap.contains_eq_isSome_getElem?, merge_getElem? hchecksum]
  cases hmsg : m.msg.shards[shard]? with
  | some info =>
    obtain ⟨owner, howner, -⟩ := (h.sent m hm).genuine shard info hmsg
    have hsame := h.oneOwner owner _ shard (mem_of_mem_take howner) hregistered
    exact absurd (hsame ▸ howner) hlate
  | none =>
    cases hknown : (s.nodes m.target).shardAssignments[shard]? with
    | none => rfl
    | some info =>
      obtain ⟨owner, howner, rfl⟩ := h.genuine m.target shard info hknown
      have hsame := h.oneOwner owner _ shard howner hregistered
      simp [Option.filter, ShardMapEnv.shardMetadata, hsame]

theorem ShardCluster.Sound.merge_genuine (h : s.Sound env) (hm : m ∈ s.inFlight) :
    Genuine env s.registered ((s.nodes m.target).mergeRemoteShards env m.msg).shardAssignments := by
  intro shard info hinfo
  by_cases hskipped : env.checksum (s.nodes m.target).shardAssignments = m.msg.shardChecksum
  · rw [(merge_skipped hskipped).1] at hinfo
    exact h.genuine m.target shard info hinfo
  · rw [merge_getElem? hskipped] at hinfo
    rcases Option.or_eq_some_iff.mp hinfo with hinfo | ⟨-, hinfo⟩
    · exact (h.sent m hm).genuine.mono (fun r hr => mem_of_mem_take hr) shard info hinfo
    · exact h.genuine m.target shard info (Option.filter_eq_some_iff.mp hinfo).1

theorem ShardCluster.Sound.step (h : s.Sound env) (hstep : s.step env e = some s') : s'.Sound env := by
  cases mapStep_cases hstep with
  | registered free => exact h.register free
  | sent _ other taken map =>
    refine ⟨h.oneOwner, h.genuine, h.own, fun m' hm => ?_⟩
    rcases mem_append.mp hm with hm | hm
    · exact h.sent m' hm
    · obtain rfl := mem_singleton.mp hm
      refine ⟨other, taken.le, ?_, ?_⟩ <;> rw [taken, take_length, map]
      · exact h.genuine _
      · exact h.own _
  | @merged i m found =>
    have hm := mem_of_getElem? found
    refine ⟨h.oneOwner, fun node => ?_, fun node shard hregistered => ?_, fun other hother =>
      h.sent other (mem_of_mem_eraseIdx hother)⟩ <;>
      by_cases hnode : node = m.target
    · subst hnode
      simp only [map, update_self]
      exact h.merge_genuine hm
    · simp only [map, update_of_ne hnode]
      exact h.genuine node
    · subst hnode
      simp only [map, update_self]
      refine h.merge_contains hm (h.own m.target shard hregistered) fun hsender => ?_
      exact absurd (h.oneOwner _ _ shard hregistered hsender) (h.sent m hm).other
    · simp only [map, update_of_ne hnode]
      exact h.own node shard hregistered
  | lost i => exact ⟨h.oneOwner, h.genuine, h.own, fun m hm => h.sent m (mem_of_mem_eraseIdx hm)⟩

theorem ShardCluster.sound_initial : initial.Sound env where
  oneOwner _ _ _ ha := absurd ha not_mem_nil
  genuine _ shard info hinfo := by
    have hnone : (∅ : ShardAssignments)[shard]? = some info := hinfo
    simp at hnone
  own _ _ hregistered := absurd hregistered not_mem_nil
  sent _ hm := absurd hm not_mem_nil

end Steps

/-! ### Rings -/

/-- No token is of two registered shards. -/
def TokensApart (env : ShardMapEnv) (registered : List (NodeId × ShardId)) : Prop :=
  ∀ a ∈ registered, ∀ b ∈ registered, ∀ token ∈ env.generateTokens a.2, token ∈ env.generateTokens b.2 → a.2 = b.2

instance (env : ShardMapEnv) (registered : List (NodeId × ShardId)) : Decidable (TokensApart env registered) :=
  -- Over the tokens of the list, not over all 64-bit numbers.
  have (a b : NodeId × ShardId) : Decidable (∀ token ∈ env.generateTokens a.2, token ∈ env.generateTokens b.2 →
    a.2 = b.2) :=
    decidableBAll _ _
  inferInstanceAs (Decidable (∀ a ∈ registered, ∀ b ∈ registered, _))

theorem TokensApart.mono {env : ShardMapEnv} {registered registered' : List (NodeId × ShardId)}
    (h : TokensApart env registered') (hsub : ∀ r ∈ registered, r ∈ registered') : TokensApart env registered :=
  fun a ha b hb => h a (hsub a ha) b (hsub b hb)

def ringOf (map : ShardAssignments) : HashRing UInt64 ShardId :=
  HashRing.build (map.toList.map fun e => (e.1, e.2.vnodeTokens))

section Rings
variable {env : ShardMapEnv} {registered : List (NodeId × ShardId)} {c : Coordinator} {msg : MergeRemoteShards}
  {map : ShardAssignments}

theorem Genuine.apart (h : Genuine env registered map) (htokens : TokensApart env registered) :
    HashRing.Apart (map.toList.map fun e => (e.1, e.2.vnodeTokens)) := by
  intro a ha b hb token hat hbt
  obtain ⟨⟨shard, info⟩, hmem, rfl⟩ := mem_map.mp ha
  obtain ⟨⟨shard', info'⟩, hmem', rfl⟩ := mem_map.mp hb
  obtain ⟨node, hnode, rfl⟩ := h shard info (ExtTreeMap.mem_toList_iff_getElem?_eq_some.mp hmem)
  obtain ⟨node', hnode', rfl⟩ := h shard' info' (ExtTreeMap.mem_toList_iff_getElem?_eq_some.mp hmem')
  exact htokens _ hnode _ hnode' token hat hbt

theorem rebuildRing_ring (h : Genuine env registered c.shardAssignments) (htokens : TokensApart env registered) :
    (c.rebuildRing env).ring = ringOf c.shardAssignments := by
  refine HashRing.build_congr (h.apart htokens) fun entry => ?_
  simp only [mem_map, (env.walk_perm c.localNodeId c.generation c.shardAssignments).mem_iff]

theorem isEmpty_filter {f : ShardId → ShardMetadata → Bool} (h : (map.filter f).isEmpty = true) {shard : ShardId}
    {info : ShardMetadata} (hinfo : map[shard]? = some info) : f shard info = false := by
  have hnone : (map.filter f)[shard]? = none := by
    rw [ExtTreeMap.isEmpty_iff.mp h, ExtTreeMap.getElem?_empty]
  rw [ExtTreeMap.getElem?_filter', hinfo] at hnone
  simpa [Option.filter] using hnone

/-- A map that is taken over rebuilds the ring, or finds every shard of it known with its node, and drops none. -/
theorem takeShards_cases (env : ShardMapEnv) (c : Coordinator) (msg : MergeRemoteShards) :
    (∃ c' : Coordinator, c'.shardAssignments = (c.takeShards env msg).shardAssignments ∧
      (c.takeShards env msg).ring = (c'.rebuildRing env).ring) ∨
      (c.takeShards env msg).ring = c.ring ∧
        (∀ (shard : ShardId) (known : ShardMetadata), c.shardAssignments[shard]? = some known →
          known.nodeId = msg.nodeId → msg.shards.contains shard = true) ∧
        ∀ (shard : ShardId) (actual : ShardMetadata), msg.shards[shard]? = some actual →
          ∃ known, c.shardAssignments[shard]? = some known ∧ known.nodeId = actual.nodeId := by
  simp only [takeShards]
  split
  · exact .inl ⟨_, rfl, rfl⟩
  · rename_i hquiet
    simp only [Bool.or_eq_true, Bool.not_eq_true', not_or, Bool.not_eq_false] at hquiet
    obtain ⟨hmerged, hremoved⟩ := hquiet
    refine .inr ⟨rfl, fun shard known hknown howner => ?_, fun shard actual hactual => ?_⟩
    · have hkept := isEmpty_filter hremoved hknown
      simpa [dropped, howner] using hkept
    · have hunchanged := isEmpty_filter hmerged hactual
      rw [ExtTreeMap.getElem?_filter'] at hunchanged
      cases hknown : c.shardAssignments[shard]? with
      | none => simp [hknown, routingChanged] at hunchanged
      | some known =>
        refine ⟨known, rfl, ?_⟩
        have hkept := isEmpty_filter hremoved hknown
        simp only [hknown, Option.filter, hkept, Bool.not_false, if_true, routingChanged, Bool.or_eq_false_iff,
          decide_eq_false_iff_not, not_not] at hunchanged
        exact hunchanged.1

theorem ShardCluster.Sound.merge_ring {s : ShardCluster} (h : s.Sound env)
    (htokens : TokensApart env s.registered) {m : MapMessage}
    (hm : m ∈ s.inFlight) (hring : (s.nodes m.target).ring = ringOf (s.map m.target)) :
    ((s.nodes m.target).mergeRemoteShards env m.msg).ring =
      ringOf ((s.nodes m.target).mergeRemoteShards env m.msg).shardAssignments := by
  by_cases hskipped : env.checksum (s.nodes m.target).shardAssignments = m.msg.shardChecksum
  · rw [(merge_skipped hskipped).1, (merge_skipped hskipped).2]
    exact hring
  · have hmerged : (s.nodes m.target).mergeRemoteShards env m.msg =
        ((s.nodes m.target).trackSender m.msg).takeShards env m.msg := by
      rw [mergeRemoteShards, if_neg hskipped]
    have hcases := takeShards_cases env ((s.nodes m.target).trackSender m.msg) m.msg
    rw [← hmerged, trackSender_same.1, trackSender_same.2] at hcases
    rcases hcases with ⟨c', hmap, hrebuilt⟩ | ⟨hsame, hdropped, hknown⟩
    · have hafter := h.merge_genuine hm
      rw [← hmap] at hafter
      rw [hrebuilt, rebuildRing_ring hafter htokens, hmap]
    · -- Nothing that is routed by is another, so the map is what it was.
      have hmap : ((s.nodes m.target).mergeRemoteShards env m.msg).shardAssignments = s.map m.target := by
        apply ExtTreeMap.ext_getElem?
        intro shard
        rw [merge_getElem? hskipped]
        cases hmsg : m.msg.shards[shard]? with
        | some actual =>
          obtain ⟨known, hfound, hnode⟩ := hknown shard actual hmsg
          obtain ⟨owner, -, rfl⟩ := h.genuine m.target shard known hfound
          obtain ⟨owner', -, rfl⟩ := (h.sent m hm).genuine shard actual hmsg
          obtain rfl : owner = owner' := hnode
          exact hfound.symm
        | none =>
          have hgone := hdropped shard
          rw [contains_iff, hmsg] at hgone
          rw [Option.none_or]
          change Option.filter _ (s.map m.target)[shard]? = _
          change ∀ known, (s.map m.target)[shard]? = some known → _ at hgone
          cases hfound : (s.map m.target)[shard]? <;> grind
      rw [hsame, hmap]
      exact hring

end Rings

/-- Every node's ring is that of its map. -/
def ShardCluster.RingSound (s : ShardCluster) : Prop := ∀ node, (s.nodes node).ring = ringOf (s.map node)

/-! ### What merges keep -/

/-- The sender registered a shard since that the target already has. -/
def Overtaken (env : ShardMapEnv) (s : ShardCluster) (m : MapMessage) : Prop :=
  env.checksum (s.map m.target) ≠ m.msg.shardChecksum ∧
    ∃ r ∈ s.registered, r ∉ s.registered.take m.taken ∧ r.1 = m.msg.nodeId ∧ (s.map m.target).contains r.2 = true

instance (env : ShardMapEnv) (s : ShardCluster) (m : MapMessage) : Decidable (Overtaken env s m) :=
  inferInstanceAs (Decidable (_ ∧ _))

/-- No step merges an overtaken message. -/
def InOrder (env : ShardMapEnv) (s : ShardCluster) : MapStep → Prop
  | .merge i => ∀ m ∈ s.inFlight[i]?, ¬ Overtaken env s m
  | _ => True

/-- No node loses a shard in this step. -/
def Keeps (env : ShardMapEnv) (s : ShardCluster) (e : MapStep) : Prop :=
  ∀ s', s.step env e = some s' → ∀ node shard, (s.map node).contains shard = true → (s'.map node).contains shard = true

/-- A pull is not skipped for an equal checksum. -/
def NotSkipped (env : ShardMapEnv) (s : ShardCluster) : MapStep → Prop
  | .merge i => ∀ m ∈ s.inFlight[i]?, m.isPull = true → env.checksum (s.map m.target) ≠ m.msg.shardChecksum
  | _ => True

instance (env : ShardMapEnv) (s : ShardCluster) : DecidablePred (InOrder env s)
  | .merge i => inferInstanceAs (Decidable (∀ m ∈ s.inFlight[i]?, ¬ Overtaken env s m))
  | .register _ _ | .answer _ _ | .push _ _ _ | .lose _ => .isTrue trivial

instance (env : ShardMapEnv) (s : ShardCluster) : DecidablePred (NotSkipped env s)
  | .merge i =>
    inferInstanceAs (Decidable (∀ m ∈ s.inFlight[i]?, m.isPull = true →
      env.checksum (s.map m.target) ≠ m.msg.shardChecksum))
  | .register _ _ | .answer _ _ | .push _ _ _ | .lose _ => .isTrue trivial

/-- Every member pulled from every other after the last registration. -/
structure AllPulled (members : List NodeId) (s : ShardCluster) : Prop where
  registered : ∀ r ∈ s.registered, r.1 ∈ members
  pulled : ∀ a ∈ members, ∀ b ∈ members, a ≠ b → (a, b, s.registered.length) ∈ s.pulls

instance (members : List NodeId) (s : ShardCluster) : Decidable (AllPulled members s) :=
  decidable_of_iff ((∀ r ∈ s.registered, r.1 ∈ members) ∧
      ∀ a ∈ members, ∀ b ∈ members, a ≠ b → (a, b, s.registered.length) ∈ s.pulls)
    ⟨fun h => ⟨h.1, h.2⟩, fun h => ⟨h.registered, h.pulled⟩⟩

/-- A pull brought what its sender had registered. -/
structure ShardCluster.Pulled (env : ShardMapEnv) (s : ShardCluster) : Prop where
  sound : s.Sound env
  rings : TokensApart env s.registered → s.RingSound
  there : ∀ a b k, (a, b, k) ∈ s.pulls → k ≤ s.registered.length ∧
    ∀ shard, (b, shard) ∈ s.registered.take k → (s.map a).contains shard = true

section Keeps
variable {env : ShardMapEnv} {s s' : ShardCluster} {e : MapStep} {members : List NodeId}

theorem step_registered (hstep : s.step env e = some s') {r : NodeId × ShardId} (hr : r ∈ s.registered) :
    r ∈ s'.registered := by
  cases mapStep_cases hstep <;> grind

theorem ShardCluster.Sound.keeps_iff (h : s.Sound env) (e : MapStep) : Keeps env s e ↔ InOrder env s e := by
  constructor
  · intro hkeeps
    cases e with
    | register | answer | push | lose => trivial
    | merge i =>
      rintro m hfound ⟨hchecksum, ⟨node, shard⟩, hregistered, hlate, rfl, hcontains⟩
      have hfound : s.inFlight[i]? = some m := hfound
      have hkept := hkeeps _ (by simp only [ShardCluster.step, hfound]; rfl) m.target shard hcontains
      simp only [map, update_self] at hkept
      rw [h.merge_removes (mem_of_getElem? hfound) hchecksum hregistered hlate] at hkept
      cases hkept
  · intro hinOrder s' hstep node shard hcontains
    cases mapStep_cases hstep with
    | @registered other shards free =>
      by_cases hother : node = other
      · subst hother
        simp only [map, update_self]
        rw [contains_iff, register_getElem?]
        split_ifs
        · exact ⟨_, rfl⟩
        · exact contains_iff.mp hcontains
      · simp only [map, update_of_ne hother]
        exact hcontains
    | sent | lost => exact hcontains
    | @merged i m found =>
      by_cases hnode : node = m.target
      · subst hnode
        simp only [map, update_self]
        by_cases hskipped : env.checksum (s.map m.target) = m.msg.shardChecksum
        · rw [(merge_skipped hskipped).1]
          exact hcontains
        · refine h.merge_contains (mem_of_getElem? found) hcontains fun hregistered => ?_
          by_contra hlate
          exact hinOrder m found ⟨hskipped, (m.msg.nodeId, shard), hregistered, hlate, rfl, hcontains⟩
      · simp only [map, update_of_ne hnode]
        exact hcontains

theorem ShardCluster.Sound.ringSound (h : s.Sound env) (hstep : s.step env e = some s')
    (htokens : TokensApart env s'.registered) (hrings : s.RingSound) : s'.RingSound := by
  have hafter := h.step hstep
  intro node
  cases mapStep_cases hstep with
  | @registered other shards free =>
    by_cases hnode : node = other
    · subst hnode
      have hgenuine := hafter.genuine node
      simp only [map, update_self] at hgenuine ⊢
      exact rebuildRing_ring hgenuine htokens
    · simp only [map, update_of_ne hnode]
      exact hrings node
  | @merged i m found =>
    by_cases hnode : node = m.target
    · subst hnode
      simp only [map, update_self]
      exact h.merge_ring htokens (mem_of_getElem? found) (hrings m.target)
    · simp only [map, update_of_ne hnode]
      exact hrings node
  | sent | lost => exact hrings node

theorem ShardCluster.pulled_initial : initial.Pulled env where
  sound := sound_initial
  rings _ _ := rfl
  there _ _ _ hpull := absurd hpull not_mem_nil

theorem ShardCluster.Pulled.step (h : s.Pulled env) (hinOrder : InOrder env s e) (hskips : NotSkipped env s e)
    (hstep : s.step env e = some s') : s'.Pulled env := by
  refine ⟨h.sound.step hstep, fun htokens => ?_, fun a b k hpull => ?_⟩
  · exact h.sound.ringSound hstep htokens (h.rings (htokens.mono fun r => step_registered hstep))
  have hkeeps := (h.sound.keeps_iff e).mpr hinOrder s' hstep
  have hold (hpull : (a, b, k) ∈ s.pulls) : k ≤ s.registered.length ∧
      ∀ shard, (b, shard) ∈ s.registered.take k → (s'.map a).contains shard = true :=
    (h.there a b k hpull).imp_right fun hthere shard hshard => hkeeps a shard (hthere shard hshard)
  cases mapStep_cases hstep with
  | registered free =>
    obtain ⟨hle, hthere⟩ := hold hpull
    rw [length_append, take_append_of_le_length hle]
    exact ⟨Nat.le_add_right_of_le hle, hthere⟩
  | sent | lost => exact hold hpull
  | @merged i m found =>
    have hm := mem_of_getElem? found
    dsimp only at hpull
    split_ifs at hpull with hpulled
    · rcases mem_cons.mp hpull with heq | hpull
      · cases heq
        refine ⟨(h.sound.sent m hm).taken, fun shard hshard => ?_⟩
        obtain ⟨info, hinfo⟩ := contains_iff.mp ((h.sound.sent m hm).own shard hshard)
        simp only [map, update_self]
        rw [contains_iff, merge_getElem? (hskips m found hpulled), hinfo]
        exact ⟨info, rfl⟩
      · exact hold hpull
    · exact hold hpull

theorem ShardCluster.Pulled.getElem? (h : s.Pulled env) (hall : AllPulled members s) {a : NodeId} (ha : a ∈ members)
    (shard : ShardId) (info : ShardMetadata) :
    (s.map a)[shard]? = some info ↔ ∃ node, (node, shard) ∈ s.registered ∧ info = env.shardMetadata node shard := by
  constructor
  · exact h.sound.genuine a shard info
  · rintro ⟨node, hnode, rfl⟩
    refine (h.sound.genuine a).entry h.sound.oneOwner hnode ?_
    by_cases hsame : a = node
    · subst hsame
      exact h.sound.own a shard hnode
    · have hpull := hall.pulled a ha node (hall.registered _ hnode) hsame
      exact (h.there a node _ hpull).2 shard (by rwa [take_length])

theorem ShardCluster.Pulled.same (h : s.Pulled env) (hall : AllPulled members s) {a b : NodeId} (ha : a ∈ members)
    (hb : b ∈ members) : s.map a = s.map b := by
  apply ExtTreeMap.ext_getElem?
  intro shard
  apply Option.ext
  intro info
  rw [h.getElem? hall ha, h.getElem? hall hb]

end Keeps

/-- In every run, no merge removes a shard from a map exactly if no map is merged after the receiver got a shard of
    the sender's that was registered after the map was taken. In such a run, if no pull is passed over and no two
    shards have a token in common, nodes that have all pulled from each other since the last registration hold one
    map and route every key to one shard. -/
theorem shard_maps_only_gain {env : ShardMapEnv} {steps : List MapStep} {s : ShardCluster}
    (hrun : Transition.run (ShardCluster.step env) .initial steps = some s) :
    (Transition.Along (ShardCluster.step env) (Keeps env) .initial steps ↔
      Transition.Along (ShardCluster.step env) (InOrder env) .initial steps) ∧
      (Transition.Along (ShardCluster.step env) (fun s e => InOrder env s e ∧ NotSkipped env s e) .initial steps →
        TokensApart env s.registered → ∀ members, AllPulled members s → ∀ a ∈ members, ∀ b ∈ members,
          s.map a = s.map b ∧ ∀ key, (s.nodes a).routeForKey env key = (s.nodes b).routeForKey env key) := by
  constructor
  · exact Transition.Along.congr (fun s e s' h _ hstep => ShardCluster.Sound.step h hstep)
      (fun s e h => ShardCluster.Sound.keeps_iff h e) sound_initial steps
  · intro hgood htokens members hall a ha b hb
    have hpulled : s.Pulled env := Transition.run_invariant
      (fun s e s' h hok hstep => ShardCluster.Pulled.step h hok.1 hok.2 hstep)
      pulled_initial hgood hrun
    have hmaps := hpulled.same hall ha hb
    refine ⟨hmaps, fun key => ?_⟩
    rw [routeForKey, routeForKey, hpulled.rings htokens a, hpulled.rings htokens b, hmaps]

def plainShards : ShardMapEnv where
  generateTokens shard := [UInt64.ofNat shard]
  checksum map := UInt64.ofNat (map.size + 1)
  hashKey _ := 0
  walk _ _ map := map.toList
  walk_perm _ _ _ := List.Perm.refl _

def pullBoth : List MapStep := [.register 1 [10], .register 2 [20], .answer 1 2, .answer 2 1, .merge 0, .merge 0]

theorem shard_maps_only_gain_pullBoth :
    ∃ s, Transition.run (ShardCluster.step plainShards) .initial pullBoth = some s ∧ AllPulled [1, 2] s ∧
      Transition.Along (ShardCluster.step plainShards) (Keeps plainShards) .initial pullBoth ∧ s.map 1 = s.map 2 := by
  have hinOrder : Transition.Along (ShardCluster.step plainShards) (InOrder plainShards) .initial pullBoth := by
    decide +kernel
  have hgood : Transition.Along (ShardCluster.step plainShards)
      (fun s e => InOrder plainShards s e ∧ NotSkipped plainShards s e) .initial pullBoth := by
    decide +kernel
  have hpulled : ∃ s, Transition.run (ShardCluster.step plainShards) .initial pullBoth = some s ∧
      AllPulled [1, 2] s ∧ TokensApart plainShards s.registered := by
    decide +kernel
  obtain ⟨s, hrun, hall, htokens⟩ := hpulled
  obtain ⟨hkeeps, hsame⟩ := shard_maps_only_gain hrun
  exact ⟨s, hrun, hall, hkeeps.mpr hinOrder, (hsame hgood htokens [1, 2] hall 1 (by simp) 2 (by simp)).1⟩

/-- A pull is answered, the peer registers another shard, and a second pull is answered and merged first. The first
    pull then takes the new shard away again; every node has pulled since the registration and nothing is on its way. -/
theorem older_pull_removes_shard :
    ∃ s s', Transition.run (ShardCluster.step plainShards) .initial
        [.register 2 [20], .answer 1 2, .register 2 [21], .answer 1 2, .merge 1, .answer 2 1, .merge 1] = some s ∧
      s.step plainShards (.merge 0) = some s' ∧ (2, 21) ∈ s.registered ∧ (s.map 1).contains 21 = true ∧
      (s'.map 1).contains 21 = false ∧ (s'.map 2).contains 21 = true ∧ s'.inFlight.length = 0 ∧
      AllPulled [1, 2] s' := by
  exact ⟨_, _, rfl, rfl, by decide, by decide +kernel, by decide +kernel, by decide +kernel, rfl, by decide⟩

end CameoDb
