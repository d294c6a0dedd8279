import CameoDb.Node.Search

/-! # When a merged search answer says that it is incomplete

A shard's documents are there if its node was asked, answered and read them. A merge counts less as a failure. -/

namespace CameoDb
open List

section Gather
variable {K D : Type} {cmp : K → K → Ordering} {node : SearchNode K D} {window : SearchWindow}

theorem mem_failures {α : Type} {f : ShardId × SearchError} {results : List (ShardId × Except SearchError α)} :
    f ∈ failures results ↔ (f.1, .error f.2) ∈ results := by
  obtain ⟨id, e⟩ := f
  simp only [failures, mem_filterMap, Prod.exists]
  grind

theorem mem_answered {α : Type} {a : ShardId × α} {results : List (ShardId × Except SearchError α)} :
    a ∈ answered results ↔ (a.1, .ok a.2) ∈ results := by
  obtain ⟨id, answer⟩ := a
  simp only [answered, mem_filterMap, Prod.exists]
  grind

theorem deadlineExceeded_failures {α : Type} {results : List (ShardId × Except SearchError α)} :
    deadlineExceeded (failures results) = true ↔ ∃ id, (id, .error .searchDeadlineExceeded) ∈ results := by
  simp [deadlineExceeded, mem_failures]

theorem noShardAnswered_some {success : Nat} {failed : List (ShardId × SearchError)} {refusal : SearchError}
    (h : noShardAnswered success failed = some refusal) : success = 0 ∧ failed ≠ [] ∧ refusal ≠ .indexNotFound := by
  unfold noShardAnswered at h
  split_ifs at h with hnone hshed
  · obtain ⟨hsuccess, hfailed⟩ : success = 0 ∧ failed ≠ [] := by simpa using hnone
    refine ⟨hsuccess, hfailed, ?_⟩
    obtain ⟨first, hfirst, rfl⟩ := Option.map_eq_some_iff.mp h
    rintro heq
    have := all_eq_true.mp hshed first (mem_of_head? hfirst)
    rw [heq] at this
    cases this
  · obtain ⟨hsuccess, hfailed⟩ : success = 0 ∧ failed ≠ [] := by simpa using hnone
    exact ⟨hsuccess, hfailed, by rw [← Option.some.inj h]; exact nofun⟩

theorem noShardAnswered_none {success : Nat} {failed : List (ShardId × SearchError)}
    (h : noShardAnswered success failed = none) : 0 < success ∨ failed = [] := by
  unfold noShardAnswered at h
  split_ifs at h with hsome hshed
  · simpa using hsome
  · right
    simpa using h

end Gather

/-! ### The sources -/

section Sources
variable {K D : Type} (cmp : K → K → Ordering) (window : SearchWindow) (node : SearchNode K D)

/-- The documents a shard is asked for are those of its hits on the page. -/
def SearchNode.AskedFor (shard : SearchShard K D) (ids : List String) : Prop :=
  (shard.id, ids) ∈ groupWindowByShard (node.keyPage cmp window)

/-- A shard whose part of the page is there: its keys came, and so did the documents it was asked for. -/
def SearchNode.Reads (shard : SearchShard K D) : Prop :=
  (∃ keys, shard.keys window.fetchCount = .ok keys) ∧
    ∀ ids, node.AskedFor cmp window shard ids → ∃ docs, shard.fetch ids = .ok docs

/-- Why a node that holds the index does not answer: it cannot sort by the field, a shard ran out of time, no shard
    could run the query, or one of them found nothing in it that it can run. -/
inductive SearchNode.Fails : Prop
  | unsortable (h : node.unsortable = true)
  | keysLate (shard : SearchShard K D) (hmem : shard ∈ node.shards)
      (h : shard.keys window.fetchCount = .error .searchDeadlineExceeded)
  | noneAnswers (hne : node.shards ≠ []) (h : ∀ shard ∈ node.shards, ∃ e, shard.keys window.fetchCount = .error e)
  | emptied (shard : SearchShard K D) (hmem : shard ∈ node.shards) (keys : ShardKeys K)
      (h : shard.keys window.fetchCount = .ok keys) (hemptied : keys.emptied = true)
  | documentsLate (shard : SearchShard K D) (hmem : shard ∈ node.shards) (ids : List String)
      (hids : node.AskedFor cmp window shard ids) (h : shard.fetch ids = .error .searchDeadlineExceeded)

variable {cmp window node}

theorem mem_fetchResults {id : ShardId} {result : Except SearchError (List (String × D))} :
    (id, result) ∈ node.fetchResults cmp window ↔
      ∃ shard ∈ node.shards, shard.id = id ∧ ∃ ids, node.AskedFor cmp window shard ids ∧ shard.fetch ids = result := by
  simp only [SearchNode.fetchResults, SearchNode.AskedFor, mem_flatMap, mem_map, mem_filter,
    decide_eq_true_eq, Prod.mk.injEq]
  constructor
  · rintro ⟨⟨_, ids⟩, hgroup, shard, ⟨hshard, rfl⟩, hid, hfetch⟩
    exact ⟨shard, hshard, hid, ids, hgroup, hfetch⟩
  · rintro ⟨shard, hshard, hid, ids, hgroup, hfetch⟩
    exact ⟨_, hgroup, shard, ⟨hshard, rfl⟩, hid, hfetch⟩

theorem mem_keyResults {id : ShardId} {result : Except SearchError (ShardKeys K)} :
    (id, result) ∈ node.keyResults window ↔ ∃ shard ∈ node.shards, shard.id = id ∧
    shard.keys window.fetchCount = result := by
  simp [SearchNode.keyResults]

theorem answered_keyResults_nil : (answered (node.keyResults window)).length = 0 ↔
    ∀ shard ∈ node.shards, ∃ e, shard.keys window.fetchCount = .error e := by
  rw [length_eq_zero_iff, eq_nil_iff_forall_not_mem]
  constructor
  · intro hnone shard hshard
    cases hresult : shard.keys window.fetchCount with
    | error e => exact ⟨e, rfl⟩
    | ok keys =>
      exact absurd (mem_answered.mpr (mem_keyResults.mpr ⟨shard, hshard, rfl, hresult⟩)) (hnone (shard.id, keys))
  · intro hall a ha
    obtain ⟨shard, hshard, -, hresult⟩ := mem_keyResults.mp (mem_answered.mp ha)
    obtain ⟨e, he⟩ := hall shard hshard
    cases he.symm.trans hresult

variable (cmp window) in
/-- A node that holds the index fails for one of these reasons, or answers. -/
theorem gather_spec (hholds : node.holds = true) :
    (∃ e, node.gather cmp window = .error e ∧ e ≠ .indexNotFound ∧ node.Fails cmp window) ∨
      ∃ answer, node.gather cmp window = .ok answer ∧ ¬ node.Fails cmp window := by
  have hkeysLate (hlate : deadlineExceeded (failures (node.keyResults window)) = true) : node.Fails cmp window := by
    obtain ⟨id, hmem⟩ := deadlineExceeded_failures.mp hlate
    obtain ⟨shard, hshard, -, hresult⟩ := mem_keyResults.mp hmem
    exact .keysLate shard hshard hresult
  unfold SearchNode.gather
  dsimp only
  rw [if_neg (by simp [hholds])]
  cases hrefusal : noShardAnswered (answered (node.keyResults window)).length (failures (node.keyResults window)) with
  | some refusal =>
    obtain ⟨hzero, hfailed, hother⟩ := noShardAnswered_some hrefusal
    dsimp only
    split_ifs with hunsortable hlate
    · exact .inl ⟨_, rfl, nofun, .unsortable hunsortable⟩
    · exact .inl ⟨_, rfl, nofun, hkeysLate hlate⟩
    · refine .inl ⟨refusal, rfl, hother, .noneAnswers ?_ (answered_keyResults_nil.mp hzero)⟩
      intro hnil
      simp [SearchNode.keyResults, failures, hnil] at hfailed
  | none =>
    split_ifs with hunsortable hlate hemptied hlate'
    · exact .inl ⟨_, rfl, nofun, .unsortable hunsortable⟩
    · exact .inl ⟨_, rfl, nofun, hkeysLate hlate⟩
    · obtain ⟨⟨id, keys⟩, hmem, hnothing⟩ := any_eq_true.mp hemptied
      obtain ⟨shard, hshard, -, hresult⟩ := mem_keyResults.mp (mem_answered.mp hmem)
      exact .inl ⟨_, rfl, nofun, .emptied shard hshard keys hresult hnothing⟩
    · have hfetch : deadlineExceeded (failures (node.fetchResults cmp window)) = true := by
        rw [deadlineExceeded, any_append, Bool.or_eq_true] at hlate'
        exact hlate'.resolve_left hlate
      obtain ⟨id, hmem⟩ := deadlineExceeded_failures.mp hfetch
      obtain ⟨shard, hshard, -, ids, hids, hresult⟩ := mem_fetchResults.mp hmem
      exact .inl ⟨_, rfl, nofun, .documentsLate shard hshard ids hids hresult⟩
    · refine .inr ⟨_, rfl, fun hfails => ?_⟩
      cases hfails with
      | unsortable h => exact hunsortable h
      | keysLate shard hshard h =>
        exact hlate (deadlineExceeded_failures.mpr ⟨_, mem_keyResults.mpr ⟨shard, hshard, rfl, h⟩⟩)
      | noneAnswers hne hall =>
        rcases noShardAnswered_none hrefusal with hpos | hnone
        · exact absurd (answered_keyResults_nil.mpr hall) (by omega)
        · obtain ⟨shard, hshard⟩ := exists_mem_of_ne_nil _ hne
          obtain ⟨e, he⟩ := hall shard hshard
          have hmem : (shard.id, e) ∈ failures (node.keyResults window) :=
            mem_failures.mpr (mem_keyResults.mpr ⟨shard, hshard, rfl, he⟩)
          rw [hnone] at hmem
          cases hmem
      | emptied shard hshard keys h hnothing =>
        exact hemptied (any_eq_true.mpr ⟨(shard.id, keys),
          mem_answered.mpr (mem_keyResults.mpr ⟨shard, hshard, rfl, h⟩), hnothing⟩)
      | documentsLate shard hshard ids hids h =>
        have hfetch := deadlineExceeded_failures.mpr ⟨_, mem_fetchResults.mpr ⟨shard, hshard, rfl, ids, hids, h⟩⟩
        exact hlate' (by rw [deadlineExceeded, any_append, Bool.or_eq_true]; exact .inr hfetch)

variable (cmp window) in
theorem gather_absent_iff : node.gather cmp window = .error .indexNotFound ↔ node.holds = false := by
  constructor
  · intro habsent
    by_contra hholds
    rcases gather_spec cmp window (eq_true_of_ne_false hholds) with ⟨e, he, hother, -⟩ | ⟨answer, hanswer, -⟩
    · cases he.symm.trans habsent
      exact hother rfl
    · cases hanswer.symm.trans habsent
  · intro hholds
    simp [SearchNode.gather, hholds]

end Sources

namespace SearchPeer
variable {K D : Type} (cmp : K → K → Ordering) (window : SearchWindow) (peer : SearchPeer K D)

/-- The source says that it has no such index. -/
def Absent : Prop :=
  peer.connected = true ∧ (peer.fate = .answers ∧ peer.node.holds = false ∨ peer.fate = .fails .indexNotFound)

/-- No answer comes from the source, for a reason other than that. -/
inductive Fails : Prop
  | lost (h : peer.connected = false)
  | timesOut (h : peer.fate = .timesOut)
  | refuses (e : SearchError) (h : peer.fate = .fails e) (hother : e ≠ .indexNotFound)
  | search (h : peer.fate = .answers) (hholds : peer.node.holds = true) (hfails : peer.node.Fails cmp window)

/-- Nothing of the index is at the source. -/
def Bare : Prop := peer.node.holds = true → peer.node.shards = []

/-- The shard's documents are in the answer of the source. -/
structure Delivers (shard : SearchShard K D) : Prop where
  connected : peer.connected = true
  answers : peer.fate = .answers
  runs : ¬ peer.node.Fails cmp window
  reads : peer.node.Reads cmp window shard

variable {cmp window peer}

theorem isAbsent_iff : (SearchCluster.peerReply cmp peer window).isAbsent = true ↔ peer.Absent := by
  unfold SearchCluster.peerReply Absent
  cases hconnected : peer.connected <;> rcases hfate : peer.fate with _ | e | _ <;>
    simp only [PeerReply.isAbsent, holdsNoSuchIndex, ← gather_absent_iff cmp window] <;> simp
  cases peer.node.gather cmp window <;> simp

theorem error?_isSome_iff : (SearchCluster.peerReply cmp peer window).error?.isSome ↔ peer.Fails cmp window := by
  unfold SearchCluster.peerReply
  constructor
  · intro herror
    cases hconnected : peer.connected with
    | false => exact .lost hconnected
    | true =>
      rw [hconnected, Bool.not_true, if_neg Bool.false_ne_true] at herror
      rcases hfate : peer.fate with _ | e | _ <;> rw [hfate] at herror <;> dsimp only at herror
      · cases hholds : peer.node.holds with
        | false =>
          rw [(gather_absent_iff cmp window).mpr hholds] at herror
          cases herror
        | true =>
          rcases gather_spec cmp window hholds with ⟨e, -, -, hfails⟩ | ⟨answer, hanswer, -⟩
          · exact .search hfate hholds hfails
          · rw [hanswer] at herror
            cases herror
      · refine .refuses e hfate ?_
        rintro rfl
        cases herror
      · exact .timesOut hfate
  · intro hfails
    split_ifs with hlost
    · rfl
    · cases hfails with
      | lost h => simp [h] at hlost
      | timesOut h => simp [h, PeerReply.error?]
      | refuses e h hother => simp [h, PeerReply.error?, holdsNoSuchIndex, hother]
      | search h hholds hfails =>
        rcases gather_spec cmp window hholds with ⟨e, he, hother, -⟩ | ⟨answer, -, hruns⟩
        · simp [h, he, PeerReply.error?, holdsNoSuchIndex, hother]
        · exact absurd hfails hruns

end SearchPeer

namespace SearchCluster
variable {K D : Type} (cmp : K → K → Ordering) (c : SearchCluster K D) (window : SearchWindow)

/-- This node, as a source of its own search. -/
def own : SearchPeer K D := ⟨c.here, true, c.refusal.elim .answers .fails⟩

/-- The peers the search does not go to: those past the limit, and all of them where the coordinator could not be
    asked. -/
def unasked : List (SearchPeer K D) := if c.coordinator then c.peers.drop c.fanoutLimit else c.peers

/-- The documents of some shard of a node that holds the index are not in the answer. -/
def Missing : Prop :=
  (∃ peer ∈ c.own :: c.asked, peer.node.holds = true ∧
      ∃ shard ∈ peer.node.shards, ¬ peer.Delivers cmp window.widened shard) ∨
    ∃ peer ∈ c.unasked, peer.node.holds = true ∧ peer.node.shards ≠ []

/-- An answer that misses documents reports a failure. -/
def Honest (streaming : Bool) : Prop :=
  ∀ answer, c.search cmp streaming window = .ok answer → c.Missing cmp window →
    answer.shards.failed ≠ 0 ∨ answer.errors ≠ []

/-- Every source that was asked says that it has no such index. -/
def Refused : Prop := ∀ peer ∈ c.own :: c.asked, peer.Absent

/-- A source fails that the merge counts. This node's own failure is counted where the merge does not stream. -/
def CountsFailure (streaming : Bool) : Prop :=
  (∃ peer ∈ c.asked, peer.Fails cmp window.widened) ∨ streaming = false ∧ c.own.Fails cmp window.widened

/-- Every shard that holds documents delivers its window. -/
structure Whole : Prop where
  unasked : ∀ peer ∈ c.unasked, peer.Bare
  asked : ∀ peer ∈ c.own :: c.asked, peer.node.holds = true →
    ∀ shard ∈ peer.node.shards, peer.Delivers cmp window.widened shard

variable {answer : SearchAnswer K D}

theorem peerReply_own : peerReply cmp c.own window = .replied (c.localResult cmp window) := by
  unfold peerReply own localResult
  cases c.refusal <;> rfl

theorem search_error_iff {streaming : Bool} :
    (∃ refusal, c.search cmp streaming window = .error refusal) ↔ c.Refused := by
  have hown : (PeerReply.replied (c.localResult cmp window.widened)).isAbsent = true ↔ c.own.Absent := by
    rw [← c.peerReply_own, SearchPeer.isAbsent_iff]
  have hasked : (∀ r ∈ c.remote cmp window.widened, r.2.isAbsent = true) ↔ ∀ peer ∈ c.asked, peer.Absent := by
    simp [remote, SearchPeer.isAbsent_iff]
  have hall : ((PeerReply.replied (c.localResult cmp window.widened)).isAbsent &&
      (c.remote cmp window.widened).all fun r => r.2.isAbsent) = true ↔ c.Refused := by
    rw [Bool.and_eq_true, hown, all_eq_true, hasked, Refused, forall_mem_cons]
  rw [← hall]
  cases streaming <;> simp only [search, handleBroadcast, handleBroadcastStreaming, all_cons, all_map] <;>
    dsimp [Function.comp_def] <;>
    split <;> simp_all

theorem whole_iff_not_missing : c.Whole cmp window ↔ ¬ c.Missing cmp window := by
  unfold Missing
  constructor
  · rintro ⟨hunasked, hasked⟩ (⟨peer, hpeer, hholds, shard, hshard, hlost⟩ | ⟨peer, hpeer, hholds, hshards⟩)
    · exact hlost (hasked peer hpeer hholds shard hshard)
    · exact hshards (hunasked peer hpeer hholds)
  · intro hnone
    refine ⟨fun peer hpeer hholds => by_contra fun hshards => hnone (.inr ⟨peer, hpeer, hholds, hshards⟩),
      fun peer hpeer hholds shard hshard => by_contra fun hlost =>
        hnone (.inl ⟨peer, hpeer, hholds, shard, hshard, hlost⟩)⟩

theorem search_reports {streaming : Bool} (h : c.search cmp streaming window = .ok answer) :
    (answer.shards.failed ≠ 0 ∨ answer.errors ≠ []) ↔ c.CountsFailure cmp window streaming := by
  have hremote : (c.remote cmp window.widened).filterMap (fun r => r.2.error?.map fun e => (r.1, e)) ≠ [] ↔
      ∃ peer ∈ c.asked, peer.Fails cmp window.widened := by
    simp [remote, filterMap_eq_nil_iff, ← SearchPeer.error?_isSome_iff, Option.isSome_iff_exists,
      Option.eq_none_iff_forall_ne_some]
  cases streaming with
  | true =>
    simp only [search, ↓reduceIte, handleBroadcastStreaming] at h
    split at h
    · cases h
    · cases h
      simp only [CountsFailure, Bool.true_eq_false, false_and, or_false, ← hremote, length_eq_zero_iff, ne_eq, or_self]
  | false =>
    simp only [search, Bool.false_eq_true, ↓reduceIte, handleBroadcast] at h
    split at h
    · cases h
    · cases h
      simp only [CountsFailure, true_and, ne_eq, length_eq_zero_iff, not_true_eq_false, or_false,
        filterMap_eq_nil_iff, mem_cons, forall_eq_or_imp, not_and_or, remote, map_map, mem_map, not_forall,
        ← SearchPeer.error?_isSome_iff, peerReply_own]
      rw [or_comm]
      refine or_congr ?_ Option.isSome_iff_ne_none.symm
      constructor
      · rintro ⟨reply, ⟨peer, hpeer, rfl⟩, herror⟩
        exact ⟨peer, hpeer, Option.isSome_iff_ne_none.mpr herror⟩
      · rintro ⟨peer, hpeer, herror⟩
        exact ⟨_, ⟨peer, hpeer, rfl⟩, Option.isSome_iff_ne_none.mp herror⟩

end SearchCluster

/-- On both paths: an answer that lacks the documents of a shard says so exactly if every source that was asked has
    no such index and the search is refused, or a source fails that the merge counts, or nothing is missing. The
    failed shards of a node that answers, the peers past the fan-out limit and, where the merge streams, this node's
    own failure are counted nowhere. -/
theorem merged_answer_honest_iff {K D : Type} (cmp : K → K → Ordering) (streaming : Bool) (c : SearchCluster K D)
    (window : SearchWindow) :
    c.Honest cmp window streaming ↔ c.Refused ∨ c.CountsFailure cmp window streaming ∨ c.Whole cmp window := by
  rw [c.whole_iff_not_missing, ← c.search_error_iff cmp window]
  constructor
  · intro honest
    cases hsearch : c.search cmp streaming window with
    | error refusal => exact .inl ⟨refusal, rfl⟩
    | ok answer =>
      right
      by_cases hmissing : c.Missing cmp window
      · exact .inl ((c.search_reports cmp window hsearch).mp (honest answer hsearch hmissing))
      · exact .inr hmissing
  · rintro (⟨refusal, hrefusal⟩ | hcounts | hnone) answer hsearch hmissing
    · cases hrefusal.symm.trans hsearch
    · exact (c.search_reports cmp window hsearch).mpr hcounts
    · exact absurd hmissing hnone

/-- A shard that holds one document, and one that fails. -/
def oneHit (id : ShardId) (doc : String) : SearchShard Nat String where
  id := id
  keys _ := .ok ⟨[⟨1, doc⟩], 1, false, .empty⟩
  fetch ids := .ok (ids.map fun id => (id, id))

def failing (id : ShardId) : SearchShard Nat String := ⟨id, fun _ => .error .io, fun _ => .error .io⟩

/-- Two nodes; the peer has a shard it cannot read. -/
def halfRead : SearchCluster Nat String where
  here := ⟨1, true, (1, 0), false, [oneHit 10 "a"]⟩
  refusal := none
  coordinator := true
  peers := [⟨⟨2, true, (1, 0), false, [oneHit 20 "b", failing 21]⟩, true, .answers⟩]
  fanoutLimit := 16

theorem failed_shard_unreported :
    halfRead.Missing compare ⟨0, 10⟩ ∧
      (∃ answer, halfRead.search compare false ⟨0, 10⟩ = .ok answer ∧ answer.shards.failed = 0 ∧ answer.errors = [] ∧
        answer.hits.map Hit.body = ["a", "b"]) ∧
      ∃ answer, halfRead.search compare true ⟨0, 10⟩ = .ok answer ∧ answer.shards.failed = 0 ∧ answer.errors = [] ∧
        answer.hits.map Hit.body = ["a", "b"] := by
  refine ⟨?_, ⟨_, rfl, by decide, rfl, by decide⟩, ⟨_, rfl, by decide, by decide, by decide⟩⟩
  refine .inl ⟨_, mem_cons_of_mem _ (mem_singleton_self _), rfl, failing 21,
    mem_cons_of_mem _ (mem_singleton_self _), ?_⟩
  rintro ⟨-, -, -, ⟨keys, hkeys⟩, -⟩
  cases hkeys

end CameoDb
