import CameoDb.Cluster.Ring

/-! # What moves on the ring

The ring has exactly the tokens of the nodes that are present, so a call moves only keys of the node it is about. -/

namespace CameoDb

open Std HashRing

/-- No two virtual nodes hash to one token. -/
def RingEnv.TokensDistinct (env : RingEnv) (nodes : Set Uuid) : Prop :=
  ∀ m ∈ nodes, ∀ n ∈ nodes, ∀ i < vnodeCount, ∀ j < vnodeCount,
    env.digest m i.toUInt32 = env.digest n j.toUInt32 → m = n ∧ i = j

def RingEnv.tokensOf (env : RingEnv) (nodes : Finset Uuid) : Set UInt64 :=
  {token | ∃ node ∈ nodes, token ∈ env.generateTokens node}

namespace RingEnv
variable {env : RingEnv} {nodes : Set Uuid} {m n : Uuid} {token : UInt64}

theorem mem_generateTokens : token ∈ env.generateTokens n ↔
    ∃ index < vnodeCount, env.digest n index.toUInt32 = token := by
  simp [generateTokens]

theorem TokensDistinct.node_eq (h : env.TokensDistinct nodes) (hm : m ∈ nodes) (hn : n ∈ nodes)
    (htm : token ∈ env.generateTokens m) (htn : token ∈ env.generateTokens n) : m = n := by
  obtain ⟨i, hi, rfl⟩ := mem_generateTokens.mp htm
  obtain ⟨j, hj, heq⟩ := mem_generateTokens.mp htn
  exact (h m hm n hn i hi j hj heq.symm).1

end RingEnv

/-! ### The tokens of a ring -/

/-- The ring has the tokens of the present nodes and no others. -/
def ConsistentRing.Holds (env : RingEnv) (ring : ConsistentRing) (present : Finset Uuid) : Prop :=
  ∀ (token : UInt64) (node : Uuid), ring[token]? = some node ↔ node ∈ present ∧ token ∈ env.generateTokens node

namespace ConsistentRing.Holds
variable {env : RingEnv} {nodes : Set Uuid} {ring : ConsistentRing} {present : Finset Uuid}

theorem empty : Holds env ∅ ∅ := fun _ _ => by simp

theorem addNode (h : Holds env ring present) (hdistinct : env.TokensDistinct nodes)
    (hpresent : ∀ m ∈ present, m ∈ nodes) {node : Uuid}
    (hnode : node ∈ nodes) : Holds env (ring.addNode (env.nodeIdentity node)) (insert node present) := by
  intro token m
  have hget : (ring.addNode (env.nodeIdentity node))[token]? =
      if token ∈ env.generateTokens node then some node else ring[token]? := getElem?_addNode
  rw [hget, Finset.mem_insert]
  split
  · next hin =>
    constructor
    · intro heq
      obtain rfl := Option.some.inj heq
      exact ⟨.inl rfl, hin⟩
    · rintro ⟨rfl | hm, htoken⟩
      · rfl
      · rw [hdistinct.node_eq (hpresent m hm) hnode htoken hin]
  · next hout =>
    rw [h token m]
    constructor
    · exact fun ⟨hm, htoken⟩ => ⟨.inr hm, htoken⟩
    · rintro ⟨rfl | hm, htoken⟩
      · exact absurd htoken hout
      · exact ⟨hm, htoken⟩

theorem removeNode (h : Holds env ring present) (node : Uuid) :
    Holds env (ring.removeNode node) (present.erase node) := by
  intro token m
  have hget : (ring.removeNode node)[token]? = some m ↔ ring[token]? = some m ∧ m ≠ node := getElem?_removeNode
  rw [hget, h token m, Finset.mem_erase]
  exact ⟨fun ⟨⟨hm, htoken⟩, hne⟩ => ⟨⟨hne, hm⟩, htoken⟩, fun ⟨⟨hne, hm⟩, htoken⟩ => ⟨⟨hm, htoken⟩, hne⟩⟩

theorem apply (h : Holds env ring present) (hdistinct : env.TokensDistinct nodes)
    (hpresent : ∀ m ∈ present, m ∈ nodes) {call : RingCall}
    (hcall : call.node ∈ nodes) : Holds env (call.apply env ring) (call.onNodes present) ∧
    ∀ m ∈ call.onNodes present, m ∈ nodes := by
  cases call with
  | addNode node =>
    refine ⟨h.addNode hdistinct hpresent hcall, fun m hm => ?_⟩
    rcases Finset.mem_insert.mp hm with rfl | hm
    · exact hcall
    · exact hpresent m hm
  | removeNode node => exact ⟨h.removeNode node, fun m hm => hpresent m (Finset.mem_of_mem_erase hm)⟩

theorem tokens (h : Holds env ring present) : {token | token ∈ ring} = env.tokensOf present := by
  ext token
  show token ∈ ring ↔ _
  rw [ExtTreeMap.mem_iff_isSome_getElem?, Option.isSome_iff_exists]
  constructor
  · rintro ⟨node, hnode⟩
    exact ⟨node, (h token node).mp hnode⟩
  · rintro ⟨node, hnode⟩
    exact ⟨node, (h token node).mpr hnode⟩

theorem getOwner_eq_some_iff (h : Holds env ring present) {key : String} {node : Uuid} :
    ring.getOwner env key = some node ↔ ∃ index < vnodeCount, node ∈ present ∧
      HashRing.IsFirstFrom (env.tokensOf present) (env.hashKey key) (env.digest node index.toUInt32) := by
  unfold ConsistentRing.getOwner
  rw [owner_eq_some_iff, h.tokens]
  constructor
  · rintro ⟨token, hfirst, hget⟩
    obtain ⟨hnode, htoken⟩ := (h token node).mp hget
    obtain ⟨index, hindex, rfl⟩ := RingEnv.mem_generateTokens.mp htoken
    exact ⟨index, hindex, hnode, hfirst⟩
  · rintro ⟨index, hindex, hnode, hfirst⟩
    exact ⟨_, hfirst, (h _ node).mpr ⟨hnode, RingEnv.mem_generateTokens.mpr ⟨index, hindex, rfl⟩⟩⟩

theorem isEmpty_eq_false_iff (h : Holds env ring present) : ring.isEmpty = false ↔ present ≠ ∅ := by
  constructor
  · rintro hfull rfl
    obtain ⟨node, howner⟩ := Option.isSome_iff_exists.mp (owner_isSome hfull 0)
    obtain ⟨token, -, hget⟩ := owner_eq_some_iff.mp howner
    exact absurd ((h token node).mp hget).1 (Finset.notMem_empty node)
  · intro hpresent
    obtain ⟨node, hnode⟩ := Finset.nonempty_iff_ne_empty.mpr hpresent
    have hget := (h (env.digest node (0 : Nat).toUInt32) node).mpr
      ⟨hnode, RingEnv.mem_generateTokens.mpr ⟨0, by decide, rfl⟩⟩
    exact isEmpty_eq_false_of_mem (ExtTreeMap.mem_iff_isSome_getElem?.mpr (by rw [hget]; rfl))

end ConsistentRing.Holds

/-! ### One call -/

namespace ConsistentRing
variable {env : RingEnv} {ring : ConsistentRing} {key : String}

theorem getOwner_addNode (identity : NodeIdentity) :
    (ring.addNode identity).getOwner env key = ring.getOwner env key ∨ (ring.addNode identity).getOwner env key =
    some identity.uuid :=
  owner_addNode identity.vnodeTokens

theorem getOwner_removeNode {node : Uuid} (h : ring.getOwner env key ≠ some node) :
    (ring.removeNode node).getOwner env key = ring.getOwner env key :=
  owner_removeNode h

end ConsistentRing

/-! ### Histories -/

section Histories
variable {env : RingEnv} {nodes : Set Uuid} {calls : List RingCall}

theorem ringAfter_concat (call : RingCall) : ringAfter env (calls ++ [call]) = call.apply env (ringAfter env calls) :=
  List.foldl_concat ..

theorem presentAfter_concat (call : RingCall) : presentAfter (calls ++ [call]) = call.onNodes (presentAfter calls) :=
  List.foldl_concat ..

theorem ringAfter_holds (hdistinct : env.TokensDistinct nodes) (hcalls : ∀ call ∈ calls, call.node ∈ nodes) :
    ConsistentRing.Holds env (ringAfter env calls) (presentAfter calls) ∧ ∀ m ∈ presentAfter calls, m ∈ nodes := by
  induction calls using List.reverseRecOn with
  | nil => exact ⟨.empty, by simp [presentAfter]⟩
  | append_singleton earlier call ih =>
    obtain ⟨hholds, hpresent⟩ := ih fun c hc => hcalls c (List.mem_append_left _ hc)
    have hcall := hcalls call (by simp)
    rw [ringAfter_concat, presentAfter_concat]
    exact hholds.apply hdistinct hpresent hcall

end Histories

/-- In every history of calls the owner of a key is the node of the first token from the key's hash on among the
    tokens of the nodes present at the end: so the owners are the same after every history that ends with the same
    nodes, a call that adds a node gives keys to that node alone, a call that removes one takes keys from that node
    alone, and a ring that is not empty has an owner for every key. -/
theorem ring_moves_only_what_it_must (env : RingEnv) (nodes : Set Uuid) (hdistinct : env.TokensDistinct nodes)
    (calls : List RingCall) (hcalls : ∀ call ∈ calls, call.node ∈ nodes) (key : String) :
    (∀ calls' : List RingCall, (∀ call ∈ calls', call.node ∈ nodes) → presentAfter calls' = presentAfter calls →
      (ringAfter env calls').getOwner env key = (ringAfter env calls).getOwner env key) ∧
    (∀ node ∈ nodes, (ringAfter env (calls ++ [.addNode node])).getOwner env key ≠
    (ringAfter env calls).getOwner env key →
      (ringAfter env (calls ++ [.addNode node])).getOwner env key = some node) ∧
    (∀ node ∈ nodes, (ringAfter env (calls ++ [.removeNode node])).getOwner env key ≠
    (ringAfter env calls).getOwner env key → (ringAfter env calls).getOwner env key = some node) ∧
    ((ringAfter env calls).isEmpty = false ↔ presentAfter calls ≠ ∅) ∧
    ((ringAfter env calls).isEmpty = false →
      ∃ node ∈ presentAfter calls, (ringAfter env calls).getOwner env key = some node ∧ ∃ index < vnodeCount,
        HashRing.IsFirstFrom (env.tokensOf (presentAfter calls)) (env.hashKey key)
        (env.digest node index.toUInt32)) := by
  obtain ⟨hholds, -⟩ := ringAfter_holds hdistinct hcalls
  refine ⟨fun calls' hcalls' hsame => ?_, fun node hnode hmoved => ?_, fun node hnode hmoved => ?_, ?_, fun hfull => ?_⟩
  · obtain ⟨hholds', -⟩ := ringAfter_holds hdistinct hcalls'
    rw [hsame] at hholds'
    apply Option.ext
    intro node
    rw [hholds'.getOwner_eq_some_iff, hholds.getOwner_eq_some_iff]
  · rw [ringAfter_concat] at hmoved ⊢
    exact (ConsistentRing.getOwner_addNode (env.nodeIdentity node)).resolve_left hmoved
  · rw [ringAfter_concat] at hmoved
    by_contra hother
    exact hmoved (ConsistentRing.getOwner_removeNode hother)
  · exact hholds.isEmpty_eq_false_iff
  · obtain ⟨node, howner⟩ := Option.isSome_iff_exists.mp (owner_isSome hfull (env.hashKey key))
    obtain ⟨index, hindex, hnode, hfirst⟩ := hholds.getOwner_eq_some_iff.mp howner
    exact ⟨node, hnode, howner, index, hindex, hfirst⟩

def countedTokens : RingEnv where
  digest uuid index := UInt64.ofNat (uuid.toNat * vnodeCount + index.toNat)
  hashKey _ := 300

theorem countedTokens_distinct : countedTokens.TokensDistinct {node | node.toNat < 3} := by
  intro m hm n hn i hi j hj heq
  have hm : m.toNat < 3 := hm
  have hn : n.toNat < 3 := hn
  unfold vnodeCount at hi hj
  have hnum : (m.toNat * 256 + i % 2 ^ 32) % 2 ^ 64 = (n.toNat * 256 + j % 2 ^ 32) % 2 ^ 64 := by
    have hval := congrArg UInt64.toNat heq
    simpa [countedTokens, vnodeCount] using hval
  have hmn : m.toNat = n.toNat := by omega
  exact ⟨BitVec.eq_of_toNat_eq hmn, by omega⟩

theorem ring_moves_only_what_it_must_twoNodes :
    presentAfter [.addNode 2, .addNode 1, .removeNode 2, .addNode 1] = presentAfter [.addNode 1] ∧
      ∀ key, (ringAfter countedTokens [.addNode 2, .addNode 1, .removeNode 2, .addNode 1]).getOwner countedTokens key =
        (ringAfter countedTokens [.addNode 1]).getOwner countedTokens key := by
  refine ⟨by decide, fun key => ?_⟩
  have hmoves := ring_moves_only_what_it_must countedTokens {node | node.toNat < 3} countedTokens_distinct [.addNode 1]
    (by decide) key
  exact hmoves.1 _ (by decide) (by decide)

end CameoDb
