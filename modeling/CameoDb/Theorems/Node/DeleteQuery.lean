import CameoDb.Node.DeleteQuery
import Mathlib.Algebra.Order.BigOperators.Group.List

/-! # How many documents a delete by query removes

The count covers the shards that answered it. The delete reaches every shard that runs it, answered or not, and so
also one that could not be counted a moment before. -/

namespace CameoDb
open List Function

/-! ### One shard -/

theorem flatten_chunks {α : Type} {size : Nat} (hsize : 0 < size) (xs : List α) : (chunks size xs).flatten = xs := by
  have hstarts : ∀ k, ((range k).map fun i => (xs.drop (i * size)).take size).flatten = xs.take (k * size) := by
    intro k
    induction k with
    | zero => simp
    | succ k ih =>
      rw [range_succ, map_append, flatten_append, ih, Nat.succ_mul, take_add]
      simp
  have hall : xs.length ≤ (xs.length + size - 1) / size * size := by
    have := Nat.lt_div_mul_add hsize (a := xs.length + size - 1)
    omega
  rw [chunks, hstarts, take_of_length_le hall]

theorem chunks_cons {α : Type} {size : Nat} (hsize : 0 < size) {xs : List α} (hne : xs ≠ []) :
    chunks size xs = xs.take size :: chunks size (xs.drop size) := by
  have hcount : (xs.length + size - 1) / size = ((xs.drop size).length + size - 1) / size + 1 := by
    have hpos := length_pos_iff.mpr hne
    rw [length_drop]
    by_cases hle : size ≤ xs.length
    · rw [show xs.length + size - 1 = xs.length - size + size - 1 + size by omega, Nat.add_div_right _ hsize]
    · rw [show xs.length + size - 1 = xs.length - 1 + size by omega, Nat.add_div_right _ hsize,
        Nat.div_eq_of_lt (by omega), Nat.div_eq_of_lt (by omega)]
  rw [chunks, hcount, range_succ_eq_map, map_cons, map_map, Nat.zero_mul, drop_zero, chunks]
  simp only [comp_def, Nat.succ_mul, drop_drop, Nat.add_comm]

/-- How many of so many matches a shard loses to a delete: the chunks it applied, the last of them perhaps
    unanswered. -/
def removedBy : List ChunkFate → Nat → Nat
  | [], found => found
  | .applied :: fates, found => min deleteChunk found + removedBy fates (found - deleteChunk)
  | .unanswered _ :: _, found => min deleteChunk found
  | .failed _ :: _, _ => 0

theorem removedBy_le (fates : List ChunkFate) (found : Nat) : removedBy fates found ≤ found := by
  induction fates generalizing found with
  | nil => exact Nat.le_refl _
  | cons fate fates ih =>
    have hrest := ih (found - deleteChunk)
    cases fate <;> unfold removedBy <;> omega

theorem deleteChunks_all (chunks : List (List String)) : (deleteChunks chunks []).2 = chunks.flatten := by
  induction chunks with
  | nil => rfl
  | cons chunk rest ih => rw [flatten_cons, ← ih]; rfl

theorem deleteChunks_removed (fates : List ChunkFate) (xs : List String) :
    (deleteChunks (chunks deleteChunk xs) fates).2.length = removedBy fates xs.length := by
  have hsize : 0 < deleteChunk := by decide
  induction fates generalizing xs with
  | nil => rw [deleteChunks_all, flatten_chunks hsize, removedBy]
  | cons fate fates ih =>
    by_cases hne : xs = []
    · have hnone := removedBy_le (fate :: fates) xs.length
      have hchunks : chunks deleteChunk xs = [] := by subst hne; rfl
      rw [hchunks]
      simp only [hne, length_nil, deleteChunks] at hnone ⊢
      omega
    · rw [chunks_cons hsize hne, deleteChunks]
      cases fate <;> simp [removedBy, ih]

def matchedIn : Except SearchError DeleteTally → Nat
  | .ok tally => tally.matched
  | .error _ => 0

section Shard
variable (shard : DeleteShard) (refresh : Bool) (fate : ShardFate)

theorem handleDeleteByQuery_removed : (handleDeleteByQuery shard .delete refresh fate).2.length =
    if fate.find.isNone then removedBy fate.chunks shard.matching.length else 0 := by
  have hremoved := deleteChunks_removed fate.chunks shard.matching
  have hzero := removedBy_le fate.chunks 0
  fun_cases handleDeleteByQuery shard .delete refresh fate <;> simp_all <;> exact hremoved

theorem handleDeleteByQuery_count :
    (handleDeleteByQuery shard .count refresh fate).2 = [] ∧
      matchedIn (handleDeleteByQuery shard .count refresh fate).1 = if fate.find.isNone then
      shard.matching.length else 0 := by
  unfold handleDeleteByQuery
  cases hfind : fate.find with
  | some e | none => exact ⟨rfl, rfl⟩

end Shard

/-! ### One node -/

variable {outcomes : List (Except SearchError DeleteTally)}

/-- A shard that refuses the query refuses it for the node; otherwise the matches are added up. -/
theorem tallyShards_spec (tally : DeleteTally) :
    (∃ e, tallyShards tally outcomes = .error e ∧ .error e ∈ outcomes ∧ isRefusal e = true) ∨
      (∃ sum, tallyShards tally outcomes = .ok sum ∧ sum.matched = tally.matched + (outcomes.map matchedIn).sum) ∧
        ∀ e, .error e ∈ outcomes → isRefusal e = false := by
  induction outcomes generalizing tally with
  | nil => exact .inr ⟨⟨tally, rfl, rfl⟩, nofun⟩
  | cons outcome rest ih =>
    cases outcome with
    | ok part =>
      have hrest := ih (tally.add part)
      unfold tallyShards
      grind [matchedIn, DeleteTally.add]
    | error e =>
      have hrest := ih { tally with shardsFailed := tally.shardsFailed + 1, errors := tally.errors ++ [e] }
      unfold tallyShards
      grind [matchedIn]

def PhaseFate.countsShard (fate : PhaseFate) (shard : Nat) : Bool :=
  fate.ask = .answers && fate.node.holds && (fate.node.shards shard).find.isNone

def PhaseFate.runs (fate : PhaseFate) : Bool :=
  fate.node.holds && match fate.ask with
    | .unasked | .unheard _ => false
    | _ => true

def PhaseFate.reaches (fate : PhaseFate) (shard : Nat) : Bool := fate.runs && (fate.node.shards shard).find.isNone

/-- The node answers that the query is not one to run: a shard says so, or the node itself. -/
def PhaseFate.Refuses (fate : PhaseFate) (node : DeleteNode) : Prop :=
  match fate.ask with
  | .unheard e | .lost e => isRefusal e = true
  | .answers =>
    fate.node.holds = true ∧ ∃ i < node.shards.length, ∃ e, (fate.node.shards i).find = some e ∧ isRefusal e = true
  | _ => False

def NodeAnswer.matched : NodeAnswer → Nat
  | answered result => matchedIn result
  | _ => 0

section Node
variable (node : DeleteNode) (refresh : Bool) (fate : PhaseFate)

theorem countsShard_sum_zero (h : fate.ask ≠ .answers ∨ fate.node.holds = false) :
    (node.shards.zipIdx.map fun s => if fate.countsShard s.2 then s.1.matching.length else 0).sum = 0 := by
  have hnone : ∀ i, fate.countsShard i = false := by
    intro i
    rcases h with h | h <;> simp [PhaseFate.countsShard, h]
  simp [hnone]

theorem handleDeleteByQuery_error_iff {node : DeleteNode} {fate : PhaseFate} {e : SearchError} :
    .error e ∈ (node.shards.zipIdx.map fun s => handleDeleteByQuery s.1 .count refresh
    (fate.node.shards s.2)).map Prod.fst ↔ ∃ i < node.shards.length, (fate.node.shards i).find = some e := by
  have hone (shard : DeleteShard) (fate : ShardFate) : (handleDeleteByQuery shard .count refresh fate).1 = .error e ↔
      fate.find = some e := by
    cases hfind : fate.find <;> simp [handleDeleteByQuery, hfind]
  simp only [map_map, mem_map, comp_apply, hone, Prod.exists, mem_zipIdx_iff_getElem?]
  constructor
  · rintro ⟨shard, i, hshard, hfind⟩
    exact ⟨i, (List.getElem?_eq_some_iff.mp hshard).1, hfind⟩
  · rintro ⟨i, hi, hfind⟩
    exact ⟨_, i, getElem?_eq_getElem hi, hfind⟩

/-- A node that is asked to count refuses the query, or its answer has the matches of the shards it counts. -/
theorem askNode_count :
    (∃ e, (askNode node .count refresh fate).1 = some (.answered (.error e)) ∧ isRefusal e = true) ∧ fate.Refuses node ∨
      ¬ fate.Refuses node ∧ (∀ e, (askNode node .count refresh fate).1 = some (.answered (.error e)) →
      isRefusal e = false) ∧ (askNode node .count refresh fate).1.elim 0 NodeAnswer.matched =
          (node.shards.zipIdx.map fun s => if fate.countsShard s.2 then s.1.matching.length else 0).sum := by
  unfold PhaseFate.Refuses
  cases hask : fate.ask with
  | answers =>
    have hanswer : (askNode node .count refresh fate).1 =
        some (.answered (deleteByQueryOnShards node.shards .count refresh fate.node).1) := by
      simp only [askNode, hask]
    rw [hanswer]
    cases hholds : fate.node.holds with
    | false =>
      rw [countsShard_sum_zero node fate (.inr hholds)]
      simp [deleteByQueryOnShards, hholds, NodeAnswer.matched, matchedIn, isRefusal]
    | true =>
      simp only [deleteByQueryOnShards, hholds, Bool.not_true, Bool.false_eq_true, ↓reduceIte]
      rcases tallyShards_spec { DeleteTally.empty with shards := node.shards.length } with
        ⟨e, htally, hmem, hrefusal⟩ | ⟨⟨sum, htally, hmatched⟩, hnone⟩
      · obtain ⟨i, hi, hfind⟩ := (handleDeleteByQuery_error_iff refresh).mp hmem
        exact .inl ⟨⟨e, by rw [htally], hrefusal⟩, trivial, i, hi, e, hfind, hrefusal⟩
      · refine .inr ⟨?_, ?_, ?_⟩
        · rintro ⟨-, i, hi, e, hfind, hrefusal⟩
          rw [hnone e ((handleDeleteByQuery_error_iff refresh).mpr ⟨i, hi, hfind⟩)] at hrefusal
          cases hrefusal
        · intro e he
          rw [htally] at he
          cases he
        · rw [htally]
          refine hmatched.trans ((Nat.zero_add _).trans ?_)
          rw [map_map, map_map]
          refine congrArg List.sum (map_congr_left fun s _ => ?_)
          rw [comp_apply, comp_apply, (handleDeleteByQuery_count s.1 refresh (fate.node.shards s.2)).2]
          simp [PhaseFate.countsShard, hask, hholds]
  | unheard e | lost e =>
    rw [countsShard_sum_zero node fate (.inl (by simp [hask]))]
    cases hrefusal : isRefusal e <;> simp [askNode, hask, hrefusal, NodeAnswer.matched, matchedIn]
  | unasked | elapsed | unreadable =>
    rw [countsShard_sum_zero node fate (.inl (by simp [hask]))]
    simp [askNode, hask, NodeAnswer.matched]

theorem askNode_removed (mode : DeleteMode) :
    (askNode node mode refresh fate).2 = node.shards.zipIdx.map fun s =>
      if fate.runs then (handleDeleteByQuery s.1 mode refresh (fate.node.shards s.2)).2 else [] := by
  have hnothing : (node.shards.map fun _ => ([] : List String)) = node.shards.zipIdx.map fun _ => [] := by
    simp [map_const']
  have hdone : (deleteByQueryOnShards node.shards mode refresh fate.node).2 = node.shards.zipIdx.map fun s =>
      if fate.node.holds then (handleDeleteByQuery s.1 mode refresh (fate.node.shards s.2)).2 else [] := by
    unfold deleteByQueryOnShards
    cases fate.node.holds
    · exact hnothing
    · simp
  cases hask : fate.ask <;> simp only [askNode, hask, PhaseFate.runs, Bool.and_false, Bool.and_true,
    hnothing, hdone] <;> simp

end Node

/-! ### The cluster -/

/-- A node that refuses the query refuses it for the request; otherwise the matches are added up, and where they are
    any, a node holds the index. -/
theorem tallyNodes_spec (tally : DeleteTally) (absent : Nat) (answers : List (NodeId × NodeAnswer)) :
    (∃ e, tallyNodes tally absent answers = .error e) ∧
    (∃ a ∈ answers, ∃ e, a.2 = .answered (.error e) ∧ isRefusal e = true) ∨
      (∀ a ∈ answers, ∀ e, a.2 = .answered (.error e) → isRefusal e = false) ∧
        ∃ sum absent', tallyNodes tally absent answers = .ok (sum, absent') ∧
          sum.matched = tally.matched + (answers.map fun a => a.2.matched).sum ∧ absent' ≤ absent + answers.length ∧
          (absent' = absent + answers.length → (answers.map fun a => a.2.matched).sum = 0) := by
  induction answers generalizing tally absent with
  | nil => exact .inr ⟨nofun, tally, absent, rfl, rfl, Nat.le_refl _, fun _ => rfl⟩
  | cons first rest ih =>
    obtain ⟨node, answer⟩ := first
    simp only [exists_mem_cons_iff, forall_mem_cons, map_cons, sum_cons, length_cons]
    by_cases hrefuses : ∃ e, answer = .answered (.error e) ∧ isRefusal e = true
    · obtain ⟨e, rfl, hrefusal⟩ := hrefuses
      exact .inl ⟨⟨e, by rw [tallyNodes, if_pos hrefusal]⟩, .inl ⟨e, rfl, hrefusal⟩⟩
    · have hfirst : ∀ e, answer = .answered (.error e) → isRefusal e = false := by
        intro e he
        exact Bool.eq_false_iff.mpr fun hrefusal => hrefuses ⟨e, he, hrefusal⟩
      -- Whatever is added for this answer, the rest of the sum goes on from there.
      obtain ⟨tally', step, hstep, hmatched, hone, hzero⟩ : ∃ tally' step,
          tallyNodes tally absent ((node, answer) :: rest) = tallyNodes tally' (absent + step) rest ∧
            tally'.matched = tally.matched + answer.matched ∧ step ≤ 1 ∧ (step = 1 → answer.matched = 0) := by
        rcases answer with (e | part) | _ | _ <;> rw [tallyNodes]
        · rw [if_neg (by simp [hfirst e rfl])]
          split_ifs
          · exact ⟨_, 1, rfl, rfl, Nat.le_refl 1, fun _ => rfl⟩
          · exact ⟨_, 0, rfl, rfl, Nat.zero_le 1, fun _ => rfl⟩
        all_goals exact ⟨_, 0, rfl, rfl, Nat.zero_le 1, by simp⟩
      rw [hstep]
      rcases ih tally' (absent + step) with ⟨herror, hrest⟩ | ⟨hnone, sum, absent', hsum, hmatched', hle, hall⟩
      · exact .inl ⟨herror, .inr hrest⟩
      · refine .inr ⟨⟨hfirst, hnone⟩, sum, absent', hsum, by omega, by omega, fun habsent => ?_⟩
        obtain rfl : step = 1 := by omega
        have := hzero rfl
        have := hall (by omega)
        omega

/-- A shard in the two phases: whether it is counted, whether the delete reaches it, its matches, and how its chunks
    fare. -/
structure ShardAccount where
  counted : Bool
  reached : Bool
  matched : Nat
  chunks : List ChunkFate

def ShardAccount.taken (a : ShardAccount) : Nat := if a.reached then removedBy a.chunks a.matched else 0

def DeleteWorld.accounts (world : DeleteWorld) : List ShardAccount :=
  world.nodes.flatMap fun node => node.shards.zipIdx.map fun s =>
    ⟨(world.counting node.id).countsShard s.2, (world.deleting node.id).reaches s.2, s.1.matching.length,
      ((world.deleting node.id).node.shards s.2).chunks⟩

/-- The matches the count covers. -/
def DeleteWorld.covered (world : DeleteWorld) : Nat :=
  (world.accounts.map fun a => if a.counted then a.matched else 0).sum

/-- The matches it misses and the delete reaches. -/
def DeleteWorld.missed (world : DeleteWorld) : Nat :=
  (world.accounts.map fun a => if a.counted = false && a.reached then a.matched else 0).sum

/-- What the delete takes where the count was, or was not. -/
def DeleteWorld.taken (world : DeleteWorld) (counted : Bool) : Nat :=
  (world.accounts.map fun a => if a.counted = counted then a.taken else 0).sum

/-- How many documents were removed. -/
def removedTotal (removed : List (List (List String))) : Nat := removed.flatten.flatten.length

section Phases
variable (world : DeleteWorld) (refresh : Bool)

theorem sum_map_filterMap {α β : Type} (f : α → Option β) (g : β → Nat) (l : List α) :
    ((l.filterMap f).map g).sum = (l.map fun a => (f a).elim 0 g).sum := by
  induction l with
  | nil => rfl
  | cons a rest ih =>
    rw [filterMap_cons, map_cons, sum_cons, ← ih]
    cases f a with
    | none => exact (Nat.zero_add _).symm
    | some b => rfl

/-- The count is answered with the matches it covers, unless a node refuses the query or there are none. -/
theorem counting_spec :
    (∃ tally, (routerDeleteByQuery world.nodes .count false world.counting).1 = .ok tally ∧
    tally.matched = world.covered) ∧ (∀ node ∈ world.nodes, ¬ (world.counting node.id).Refuses node) ∨
      (∃ e, (routerDeleteByQuery world.nodes .count false world.counting).1 = .error e) ∧
        ((∃ node ∈ world.nodes, (world.counting node.id).Refuses node) ∨ world.covered = 0) := by
  have hcount := fun node : DeleteNode => askNode_count node false (world.counting node.id)
  unfold routerDeleteByQuery
  dsimp only
  set answers := (world.nodes.map fun node => (node.id, askNode node .count false (world.counting node.id))).filterMap
    fun a => a.2.1.map fun answer => (a.1, answer) with hanswers
  have hmem : ∀ a, a ∈ answers ↔
      ∃ node ∈ world.nodes, node.id = a.1 ∧ (askNode node .count false (world.counting node.id)).1 = some a.2 := by
    intro a
    simp only [hanswers, mem_filterMap, mem_map, Option.map_eq_some_iff]
    constructor
    · rintro ⟨_, ⟨node, hnode, rfl⟩, answer, hanswer, rfl⟩
      exact ⟨node, hnode, rfl, hanswer⟩
    · rintro ⟨node, hnode, hid, hanswer⟩
      exact ⟨_, ⟨node, hnode, rfl⟩, a.2, hanswer, Prod.ext hid rfl⟩
  rcases tallyNodes_spec .empty 0 answers with ⟨⟨e, htally⟩, a, ha, refusal, hrefusal, his⟩ |
    ⟨hnone, sum, absent, htally, hmatched, hle, hall⟩
  · obtain ⟨node, hnode, -, hanswer⟩ := (hmem a).mp ha
    rw [htally]
    rcases hcount node with ⟨-, hrefuses⟩ | ⟨-, hnot, -⟩
    · exact .inr ⟨⟨e, rfl⟩, .inl ⟨node, hnode, hrefuses⟩⟩
    · rw [hnot refusal (hrefusal ▸ hanswer)] at his
      cases his
  · have hnodes : ∀ node ∈ world.nodes, ¬ (world.counting node.id).Refuses node := by
      intro node hnode
      rcases hcount node with ⟨⟨e, he, his⟩, -⟩ | ⟨hnot, -⟩
      · rw [hnone (node.id, _) ((hmem _).mpr ⟨node, hnode, rfl, he⟩) e rfl] at his
        cases his
      · exact hnot
    have hsum : (answers.map fun a => a.2.matched).sum = world.covered := by
      rw [DeleteWorld.covered, DeleteWorld.accounts, hanswers, sum_map_filterMap, map_map, map_flatMap, flatMap_def,
        sum_flatten, map_map]
      refine congrArg List.sum (map_congr_left fun node hnode => ?_)
      rcases hcount node with ⟨-, hrefuses⟩ | ⟨-, -, hmatches⟩
      · exact absurd hrefuses (hnodes node hnode)
      · simp only [comp_def, Option.elim_map, map_map]
        exact hmatches
    rw [htally]
    dsimp only
    split_ifs with habsent
    · exact .inr ⟨⟨_, rfl⟩, .inr (hsum ▸ hall (by omega))⟩
    · exact .inl ⟨⟨sum, rfl, hmatched.trans ((Nat.zero_add _).trans hsum)⟩, hnodes⟩

theorem counting_removed : removedTotal (routerDeleteByQuery world.nodes .count refresh world.counting).2 = 0 := by
  have hnone : ∀ node : DeleteNode, (askNode node .count refresh (world.counting node.id)).2.flatten = [] := by
    intro node
    rw [askNode_removed, flatten_eq_nil_iff]
    intro removed hremoved
    obtain ⟨s, -, rfl⟩ := mem_map.mp hremoved
    split
    · exact (handleDeleteByQuery_count ..).1
    · rfl
  simp only [removedTotal, routerDeleteByQuery, map_map, length_eq_zero_iff, flatten_eq_nil_iff, mem_flatten]
  rintro removed ⟨parts, hparts, hremoved⟩
  obtain ⟨node, -, rfl⟩ := mem_map.mp hparts
  exact flatten_eq_nil_iff.mp (hnone node) removed hremoved

theorem deleting_removed : removedTotal (routerDeleteByQuery world.nodes .delete refresh world.deleting).2 =
    world.taken true + world.taken false := by
  have htotal : removedTotal (routerDeleteByQuery world.nodes .delete refresh world.deleting).2 =
      (world.accounts.map (·.taken)).sum := by
    simp only [removedTotal, routerDeleteByQuery, DeleteWorld.accounts, ShardAccount.taken, PhaseFate.reaches,
      map_map, flatMap_def,
      length_flatten, map_flatten, sum_flatten, comp_def, askNode_removed, apply_ite length, length_nil,
      handleDeleteByQuery_removed, Bool.and_eq_true, ite_and]
  rw [htotal, DeleteWorld.taken, DeleteWorld.taken, ← sum_map_add]
  refine congrArg sum (map_congr_left fun a _ => ?_)
  cases a.counted <;> simp

theorem ShardAccount.taken_le (a : ShardAccount) : a.taken ≤ a.matched := by
  unfold taken
  split
  · exact removedBy_le ..
  · exact Nat.zero_le _

theorem taken_le_covered : world.taken true ≤ world.covered := by
  refine sum_le_sum fun a _ => ?_
  have := a.taken_le
  split_ifs <;> omega

theorem taken_le_missed : world.taken false ≤ world.missed := by
  refine sum_le_sum fun a _ => ?_
  have := a.taken_le
  have hnone (h : a.reached = false) : a.taken = 0 := by simp [ShardAccount.taken, h]
  cases a.counted <;> cases hreached : a.reached <;> simp_all

end Phases

/-! ### The request -/

namespace DeleteWorld
variable (world : DeleteWorld) (payload : DeleteByQueryPayload)

def limit : Nat := payload.maxDocs.getD world.deleteMaxDocs

/-- The request comes to its delete. -/
structure Reaches : Prop where
  written : payload.query.toList.all isWhiteSpace = false
  meant : payload.dryRun = false
  runs : ∀ node ∈ world.nodes, ¬ (world.counting node.id).Refuses node
  found : 0 < world.covered
  within : world.covered ≤ world.limit payload
  allowed : world.allowance world.covered = true

/-- Without a confirmation no more than the limit is removed. -/
def KeepsLimit : Prop :=
  payload.confirm = false → removedTotal (deleteByQueryHandler world payload).2 ≤ world.limit payload ∧
    ∀ counted, (deleteByQueryHandler world payload).1 = .limitExceeded counted →
      removedTotal (deleteByQueryHandler world payload).2 = 0

theorem handler_removed (hconfirm : payload.confirm = false) :
    (world.Reaches payload ∧
      removedTotal (deleteByQueryHandler world payload).2 = world.taken true + world.taken false ∧
      ∀ counted, (deleteByQueryHandler world payload).1 ≠ .limitExceeded counted) ∨
    ¬ world.Reaches payload ∧ removedTotal (deleteByQueryHandler world payload).2 = 0 := by
  have hcounting := counting_removed world false
  have hdeleting := deleting_removed world payload.refresh
  have hspec := counting_spec world
  fun_cases deleteByQueryHandler world payload with
  | case6 hquery maxDocs counting counted hcounted hgo hwithin hallowance deleting =>
    simp only [hconfirm, Bool.not_false, Bool.and_true, decide_eq_true_eq, Nat.not_lt] at hwithin
    simp only [Bool.or_eq_true, decide_eq_true_eq, not_or, Bool.not_eq_true] at hgo
    obtain ⟨⟨tally, htally, hmatched⟩, hruns⟩ | ⟨⟨e, he⟩, -⟩ := hspec
    · cases hcounted.symm.trans htally
      rw [hmatched] at hgo hwithin hallowance
      refine .inl ⟨⟨by simpa using hquery, hgo.1, hruns, by omega, hwithin, by simpa using hallowance⟩, ?_,
        fun other hother => ?_⟩
      · rw [removedTotal, flatten_append, flatten_append, length_append]
        exact (congrArg₂ (· + ·) hcounting hdeleting).trans (Nat.zero_add _)
      · dsimp only at hother
        split at hother <;> cases hother
    · cases hcounted.symm.trans he
  | case1 hblank => exact .inr ⟨fun h => absurd hblank (by simp [h.written]), rfl⟩
  | _ => exact .inr ⟨fun h => by obtain ⟨_, _, _, _, _, _⟩ := h; grind [limit], hcounting⟩

end DeleteWorld

/-- A request without `confirm` keeps its limit exactly if, whenever it comes to the delete, what the delete takes
    from the shards the count missed fits into what it leaves of the limit on the others. So it keeps it where the
    matches of the missed shards that the delete reaches fit beside the counted ones, and always where there are
    none. -/
theorem delete_by_query_limit_iff (world : DeleteWorld) (payload : DeleteByQueryPayload) :
    (world.KeepsLimit payload ↔
      (payload.confirm = false → world.Reaches payload → world.taken false ≤ world.limit payload - world.taken true)) ∧
    (world.missed ≤ world.limit payload - world.covered → world.KeepsLimit payload) := by
  have hcovered := taken_le_covered world
  have hmissed := taken_le_missed world
  have hiff : world.KeepsLimit payload ↔
      (payload.confirm = false → world.Reaches payload →
        world.taken false ≤ world.limit payload - world.taken true) := by
    constructor
    · intro hkeeps hconfirm hreaches
      rcases world.handler_removed payload hconfirm with ⟨-, hremoved, -⟩ | ⟨hnot, -⟩
      · have hle := (hkeeps hconfirm).1
        omega
      · exact absurd hreaches hnot
    · intro hfits hconfirm
      rcases world.handler_removed payload hconfirm with ⟨hreaches, hremoved, hanswer⟩ | ⟨-, hremoved⟩
      · have hwithin := hreaches.within
        have hle := hfits hconfirm hreaches
        exact ⟨by omega, fun counted h => absurd h (hanswer counted)⟩
      · exact ⟨by omega, fun _ _ => hremoved⟩
  exact ⟨hiff, fun hfits => hiff.mpr fun _ _ => by omega⟩

def twoMatches : DeleteWorld where
  nodes := [⟨1, [⟨["a"], 0⟩]⟩, ⟨2, [⟨["b"], 0⟩]⟩]
  counting node := ⟨if node = 1 then .answers else .elapsed, ⟨true, fun _ => .sound⟩⟩
  deleting _ := ⟨.answers, ⟨true, fun _ => .sound⟩⟩
  deleteMaxDocs := 1000
  allowance _ := true

theorem recovered_peer_exceeds_limit :
    ¬ twoMatches.KeepsLimit ⟨"title:x", some 1, false, false, false⟩ ∧
      (deleteByQueryHandler twoMatches ⟨"title:x", some 1, false, false, false⟩).2.flatten.flatten = ["a", "b"] := by
  have hremoved : (deleteByQueryHandler twoMatches ⟨"title:x", some 1, false, false, false⟩).2.flatten.flatten =
      ["a", "b"] := by
    decide +kernel
  refine ⟨fun hkeeps => ?_, hremoved⟩
  have hle := (hkeeps rfl).1
  rw [removedTotal, hremoved] at hle
  exact absurd hle (by decide)

end CameoDb
