import CameoDb.Theorems.Storage.Admission
import CameoDb.Theorems.Storage.Convergence
import CameoDb.Node.WriterThread

namespace CameoDb
open List Function StorageCommand Std Crash

/-! # Coalescing writes

A drain of the writer thread gives every caller the numbers, and leaves the rows and the documents, that its commands
applied one at a time give and leave. -/

namespace StorageCommand

def target : StorageCommand → Option String
  | write index _ _ => some index
  | batchWrite index _ _ => some index
  | _ => none

def ops : StorageCommand → List WalOp
  | write _ op _ => [op]
  | batchWrite _ ops _ => ops
  | _ => []

def answer (seqs : List Nat) : StorageCommand → List (Nat × Reply)
  | write _ _ reply => [(reply, .single (.ok (seqs.headD 0)))]
  | batchWrite _ _ reply => [(reply, .batch (.ok seqs))]
  | _ => []

end StorageCommand

def answersFrom : Nat → List StorageCommand → List (Nat × Reply)
  | _, [] => []
  | start, cmd :: rest => cmd.answer (range' start cmd.ops.length) ++ answersFrom (start + cmd.ops.length) rest

def groupOps (cmds : List StorageCommand) (index : String) : List WalOp :=
  (groupCommands cmds index).flatMap StorageCommand.ops

def groupAnswers (cmds : List StorageCommand) (start : String → Nat) (index : String) : List (Nat × Reply) :=
  answersFrom (start index) (groupCommands cmds index)

/-! ### Splitting the numbers of a merged batch -/

theorem range'_slice (start offset count total : Nat) (h : offset + count ≤ total) :
    ((range' start total).drop offset).take count = range' (start + offset) count := by
  rw [drop_range', take_range'_of_length_ge (by omega), Nat.mul_one]

def rangesFrom : Nat → List Nat → List (Nat × Nat)
  | _, [] => []
  | offset, count :: rest => (offset, offset + count) :: rangesFrom (offset + count) rest

variable {counts : List Nat}

theorem walkRanges_eq {offset : Nat} (h : offset + counts.sum < u64Limit) :
    walkRanges counts offset = some (rangesFrom offset counts, offset + counts.sum) := by
  induction counts generalizing offset with
  | nil => rfl
  | cons count rest ih =>
    rw [sum_cons] at h
    rw [walkRanges, if_neg (by omega), ih (by omega), sum_cons]
    simp [rangesFrom, Nat.add_assoc]

theorem mergedReplyRanges_eq (h : counts.sum < u64Limit) :
    mergedReplyRanges counts counts.sum = some (rangesFrom 0 counts) := by
  rw [mergedReplyRanges, walkRanges_eq (by omega)]
  simp

section Split
variable (index : String)

theorem target_of_mem (writes : List (WalOp × Nat)) (batches : List (List WalOp × Nat)) {cmd : StorageCommand}
    (h : cmd ∈ writes.map (fun w => write index w.1 w.2) ++ batches.map fun b => batchWrite index b.1 b.2) :
    cmd.target = some index := by
  simp only [mem_append, mem_map] at h
  rcases h with ⟨w, -, rfl⟩ | ⟨b, -, rfl⟩ <;> rfl

def mergedReply : StorageCommand → MergedWriteReply
  | write _ _ reply => .single reply
  | batchWrite _ _ reply => .batch reply
  | _ => .batch 0

theorem answers_ranges (cs : List StorageCommand) (hcs : ∀ cmd ∈ cs, cmd.target = some index) (start total offset : Nat)
    (h : offset + (cs.map fun cmd => cmd.ops.length).sum ≤ total) :
    ((cs.map mergedReply).zip (rangesFrom offset (cs.map fun cmd => cmd.ops.length))).map
      (fun x => x.1.answer (range' start total) x.2) = answersFrom (start + offset) cs := by
  induction cs generalizing offset with
  | nil => rfl
  | cons cmd rest ih =>
    rw [map_cons, sum_cons] at h
    have hrest := ih (fun c hc => hcs c (mem_cons_of_mem _ hc)) (offset + cmd.ops.length) (by omega)
    have ht := hcs cmd mem_cons_self
    rw [map_cons, map_cons, rangesFrom, zip_cons_cons, map_cons, hrest, answersFrom, Nat.add_assoc]
    cases cmd with
    | write i op reply =>
      have hlt : offset < total := by
        simp only [StorageCommand.ops, length_singleton] at h
        omega
      simp [mergedReply, MergedWriteReply.answer, answer, StorageCommand.ops, getElem?_range' hlt]
    | batchWrite i ops reply =>
      simp only [mergedReply, MergedWriteReply.answer, Nat.add_sub_cancel_left]
      rw [range'_slice _ _ _ _ (by omega)]
      rfl
    | _ => simp [target] at ht

theorem answers_zip (start : Nat) (writes : List (WalOp × Nat)) :
    (((writes.map Prod.snd).zip (range' start writes.length)).map fun (x : Nat × Nat) =>
    (x.1, Reply.single (.ok x.2))) = answersFrom start (writes.map fun w => write index w.1 w.2) := by
  induction writes generalizing start with
  | nil => rfl
  | cons w rest ih =>
    simp only [map_cons, length_cons, range'_succ, zip_cons_cons, ih, answersFrom, answer,
      StorageCommand.ops]
    rfl

theorem answers_split (start total : Nat) (batches : List (List WalOp × Nat)) (offset : Nat)
    (h : offset + (batches.map fun b => b.1.length).sum ≤ total) :
    splitBatches (range' start total) batches offset =
      answersFrom (start + offset) (batches.map fun b => batchWrite index b.1 b.2) := by
  induction batches generalizing offset with
  | nil => rfl
  | cons b rest ih =>
    simp only [map_cons, sum_cons] at h
    simp only [splitBatches, map_cons, answersFrom, answer, StorageCommand.ops]
    rw [range'_slice _ _ _ _ (by omega), ih (offset + b.1.length) (by omega), Nat.add_assoc]
    rfl

end Split

/-! ### One index -/

section Index
variable {env : Env} {s s' : Store} {start fresh : Nat} (index : String)
  {batches : List (List WalOp × Nat)} {writes : List (WalOp × Nat)}

theorem drainMixed_returns (hfits : (writes.map Prod.fst ++ batches.flatMap Prod.fst).length < u64Limit)
    (h : Returns (applyBatch env (writes.map Prod.fst ++ batches.flatMap Prod.fst)) s
      (range' start (writes.map Prod.fst ++ batches.flatMap Prod.fst).length, fresh) s') :
    Returns (drainMixed env writes batches) s
      (answersFrom start (writes.map (fun w => write index w.1 w.2) ++
        batches.map fun b => batchWrite index b.1 b.2)) s' := by
  have hcount : (writes.map Prod.fst ++ batches.flatMap Prod.fst).length =
      (writes.map (fun _ => 1) ++ batches.map fun b : List WalOp × Nat => b.1.length).sum := by
    simp [length_flatMap]
  have hanswers := answers_ranges index _ (fun _ => target_of_mem index writes batches) start _ 0 (Nat.zero_add _).le
  simp only [map_append, map_map, comp_def, mergedReply, StorageCommand.ops, length_singleton] at hanswers
  refine h.attempt.bind ?_
  dsimp only
  rw [length_range', hcount, mergedReplyRanges_eq (hcount ▸ hfits)]
  dsimp only
  rw [hanswers]
  rfl

theorem drainWrites_returns (h : Returns (applyBatch env (writes.map Prod.fst)) s
    (range' start writes.length, fresh) s') :
    Returns (drainWrites env writes) s (answersFrom start (writes.map fun w => write index w.1 w.2)) s' := by
  rcases writes with _ | ⟨⟨op, reply⟩, _ | ⟨w, rest⟩⟩
  case cons.nil =>
    have hone : Returns (applyWrite env op) s start s' := h.bind rfl
    exact hone.attempt.bind rfl
  all_goals
    refine h.attempt.bind ?_
    rw [← answers_zip]
    rfl

theorem drainBatches_returns
    (h : Returns (applyBatch env (batches.flatMap Prod.fst)) s
    (range' start (batches.flatMap Prod.fst).length, fresh) s') : Returns (drainBatches env batches) s
      (answersFrom start (batches.map fun b => batchWrite index b.1 b.2)) s' := by
  have hsplit := answers_split index start (batches.flatMap Prod.fst).length batches 0 (by simp [length_flatMap])
  rw [Nat.add_zero] at hsplit
  rcases batches with _ | ⟨⟨ops, reply⟩, _ | ⟨b, rest⟩⟩
  case cons.nil =>
    rw [flatMap_cons, flatMap_nil, append_nil] at h
    exact h.attempt.bind rfl
  all_goals
    refine h.attempt.bind ?_
    rw [← hsplit]
    rfl

end Index

/-- A commit ends alike in both and leaves the same documents. -/
structure SameAfterCommit (env : Env) (a b : Store) : Prop where
  outcome : (commitIndex env [] a).outcome = (commitIndex env [] b).outcome
  docs : ∀ id, Edit.under TantivyDocument.id (commitIndex env [] a).state.dir.docs id =
    Edit.under TantivyDocument.id (commitIndex env [] b).state.dir.docs id

/-- Two states a list of operations, numbered from `start` on, can leave of one index. -/
structure Transparent (env : Env) (s : Store) (start : Nat) (ops : List WalOp) (a b : Store) : Prop where
  data : a.tables.data = b.tables.data
  committed : SameAfterCommit env a b
  log : logOf a.redb.all = logOf s.redb.all ++ (range' start ops.length).zip (ops.map WalOp.id)
  sorted : (logOf a.redb.all).Pairwise fun x y => x.1 < y.1

section Index
variable {env : Env} {lax : Prop} {base : List Txn} {s₀ s : Store} {lim : Nat}

theorem Applied.sameAfterCommit {s' a b : Store} {index : TantivyIndex} {fields : SchemaFields} {schema : IndexSchema}
    {lim' last : Nat} {prepared : List PreparedOp}
    (ha : Applied env lax base s₀ lim s' a index fields schema last prepared)
    (hb : Applied env lax base s₀ lim' s' b index fields schema last prepared) (hne : prepared ≠ []) :
    SameAfterCommit env a b := by
  have hpos : 0 < prepared.length := length_pos_iff.mpr hne
  obtain ⟨_, _, -, -, hra⟩ := ha.ready
  obtain ⟨_, _, -, -, hrb⟩ := hb.ready
  obtain ⟨a', hca, hda⟩ := hra.commitIndex env (by rw [ha.wrote.operations]; omega)
  obtain ⟨b', hcb, hdb⟩ := hrb.commitIndex env (by rw [hb.wrote.operations]; omega)
  refine ⟨by rw [hca, hcb], fun id => ?_⟩
  rw [hca, hcb]
  rw [hda, hdb, ha.wrote.docs, hb.wrote.docs]

theorem Live.coalesce (h : Live env lax base s₀ lim s) (segs : List (List WalOp))
    (hlim : lim + segs.flatten.length < u64Limit - 1) (hacc : ∀ op ∈ segs.flatten, Accepted env s op) :
    ∃ start a b, (∃ fresh, Returns (applyBatch env segs.flatten) s (range' start segs.flatten.length, fresh) a) ∧
      (∃ rs, Steps (applyBatch env) s segs rs b ∧ rs.map Prod.fst = runsFrom start segs) ∧
      Transparent env s start segs.flatten a b := by
  by_cases hnil : segs.flatten = []
  · have hempty : ∀ segs : List (List WalOp), segs.flatten = [] →
        ∃ rs, Steps (applyBatch env) s segs rs s ∧ rs.map Prod.fst = runsFrom 0 segs := by
      intro segs hnil
      induction segs with
      | nil => exact ⟨[], .nil s, rfl⟩
      | cons ops rest ih =>
        obtain ⟨rfl, hrest⟩ := append_eq_nil_iff.mp hnil
        obtain ⟨rs, hsteps, hseqs⟩ := ih hrest
        have hskip : Returns (applyBatch env []) s ([], 0) s := rfl
        exact ⟨_, .cons hskip hsteps, congrArg ([] :: ·) hseqs⟩
    refine ⟨0, s, s, ⟨0, by rw [hnil]; rfl⟩, hempty segs hnil, rfl, ⟨rfl, fun _ => rfl⟩, by simp [hnil], ?_⟩
    obtain ⟨_, d, -⟩ := h
    exact d.sorted
  · obtain ⟨op, hop⟩ := exists_mem_of_ne_nil _ hnil
    obtain ⟨s', index, w, schema, last, hopens, hlive⟩ := h.opens_of_accepted (by omega) (hacc op hop)
    obtain ⟨prepared, hprep⟩ := prepareOps_accepts (fun op hop => hopens.prepares (hacc op hop)) (last + 1)
    have haccept : ∀ ops ∈ segs, ops ≠ [] → Returns (admitBatch env ops) s () s := fun ops hops hne =>
      admitBatch_of_accepted hne fun op hop => hacc op (mem_flatten_of_mem hops hop)
    obtain ⟨fresh, a, hmerged, happ⟩ := hopens.applyBatch hlive hnil (admitBatch_of_accepted hnil hacc) hlim hprep
    obtain ⟨rs, b, hsteps, hseqs, hserial⟩ := hopens.applyBatches hlive segs haccept hlim hprep
    obtain happ' := hserial.resolve_left fun h => hnil h.1
    obtain ⟨hnumbers, hids, -⟩ := prepareOps_spec hprep
    have hne : prepared ≠ [] := fun hc => hnil (by
      rw [hc] at hids
      simpa using hids.symm)
    refine ⟨last + 1, a, b, ⟨fresh, hmerged⟩, ⟨rs, hsteps, hseqs⟩, ?_, happ.sameAfterCommit happ' hne, ?_, ?_⟩
    · rw [happ.wrote.data, happ'.wrote.data]
    · rw [happ.wrote.log, hopens.log, ← hnumbers, ← hids]
      congr 1
      simp [zip_map', PreparedOp.logged]
    · obtain ⟨_, d, -⟩ := happ.live
      exact d.sorted

end Index

/-! ### A whole drain -/

section Walk
variable {cmds : List StorageCommand} {index : String}

theorem mem_keysOf {α : Type} {pick : StorageCommand → Option (String × α)} :
    index ∈ keysOf pick cmds ↔ groupOf pick cmds index ≠ [] := by
  rw [keysOf, mem_dedup, mem_filterMap]
  constructor
  · rintro ⟨cmd, hcmd, hkey⟩
    obtain ⟨⟨i, a⟩, hpick, rfl⟩ := Option.map_eq_some_iff.mp hkey
    exact ne_nil_of_mem (mem_filterMap.mpr ⟨cmd, hcmd, by simp [hpick]⟩ : a ∈ groupOf pick cmds i)
  · intro hne
    obtain ⟨a, ha⟩ := exists_mem_of_ne_nil _ hne
    obtain ⟨cmd, hcmd, hsome⟩ := mem_filterMap.mp ha
    obtain ⟨⟨i, a'⟩, hpick, hsome⟩ := Option.bind_eq_some_iff.mp hsome
    have hi : i = index := by
      by_contra hi
      simp [hi] at hsome
    exact ⟨cmd, hcmd, by rw [hpick, Option.map_some, hi]⟩

namespace Walk

def order (walk : Walk cmds) : List String := walk.mixed ++ walk.writes ++ walk.batches

theorem mem_mixed (walk : Walk cmds) : index ∈ walk.mixed ↔ writeGroup cmds index ≠ [] ∧
    batchGroup cmds index ≠ [] := by
  rw [walk.mixed_perm.mem_iff, mem_filter, mem_keysOf, decide_eq_true_eq, mem_keysOf]

theorem mem_writes (walk : Walk cmds) : index ∈ walk.writes ↔ writeGroup cmds index ≠ [] ∧
    batchGroup cmds index = [] := by
  rw [walk.writes_perm.mem_iff, mem_filter, mem_keysOf, decide_eq_true_eq, mem_keysOf, not_not]

theorem mem_batches (walk : Walk cmds) : index ∈ walk.batches ↔ batchGroup cmds index ≠ [] ∧
    writeGroup cmds index = [] := by
  rw [walk.batches_perm.mem_iff, mem_filter, mem_keysOf, decide_eq_true_eq, mem_keysOf, not_not]

theorem groups_of_notMem (walk : Walk cmds) (h : index ∉ walk.order) :
    writeGroup cmds index = [] ∧ batchGroup cmds index = [] := by
  simp only [order, mem_append, walk.mem_mixed, walk.mem_writes, walk.mem_batches, not_or, not_and, not_not] at h
  obtain ⟨⟨hmixed, hwrites⟩, hbatches⟩ := h
  by_cases hw : writeGroup cmds index = []
  · exact ⟨hw, by_contra fun hb => hbatches hb hw⟩
  · exact absurd (hmixed hw) (hwrites hw)

theorem order_nodup (walk : Walk cmds) : walk.order.Nodup := by
  have hmixed : walk.mixed.Nodup := walk.mixed_perm.nodup_iff.mpr ((nodup_dedup _).filter _)
  have hwrites : walk.writes.Nodup := walk.writes_perm.nodup_iff.mpr ((nodup_dedup _).filter _)
  have hbatches : walk.batches.Nodup := walk.batches_perm.nodup_iff.mpr ((nodup_dedup _).filter _)
  refine (hmixed.append hwrites fun i hm hw => ?_).append hbatches fun i hl hb => ?_
  · exact (walk.mem_mixed.mp hm).2 (walk.mem_writes.mp hw).2
  · have hno := (walk.mem_batches.mp hb).2
    rcases mem_append.mp hl with hl | hl
    · exact (walk.mem_mixed.mp hl).1 hno
    · exact (walk.mem_writes.mp hl).1 hno

end Walk

theorem target_of_mem_groupCommands {cmd : StorageCommand} (h : cmd ∈ groupCommands cmds index) :
    cmd.target = some index :=
  target_of_mem index _ _ h

theorem groupOps_eq (cmds : List StorageCommand) (index : String) :
    groupOps cmds index = (writeGroup cmds index).map Prod.fst ++ (batchGroup cmds index).flatMap Prod.fst := by
  simp only [groupOps, groupCommands, flatMap_append, flatMap_map, StorageCommand.ops]
  rw [map_eq_flatMap]

theorem groupCommands_cons (cmds : List StorageCommand) (cmd : StorageCommand) (index : String) :
    (groupCommands (cmd :: cmds) index).Perm
      (if cmd.target = some index then cmd :: groupCommands cmds index else groupCommands cmds index) := by
  cases cmd with
  | write i | batchWrite i =>
    by_cases hi : i = index
    · subst hi
      simp [groupCommands, groupOf, writeOf, batchOf, target]
    · simp [groupCommands, groupOf, writeOf, batchOf, target, hi]
  | _ => simp [groupCommands, groupOf, writeOf, batchOf, target]

theorem groupCommands_perm (cmds : List StorageCommand) (index : String) :
    (groupCommands cmds index).Perm (cmds.filter fun cmd => cmd.target = some index) := by
  induction cmds with
  | nil => exact .nil
  | cons cmd rest ih =>
    refine (groupCommands_cons rest cmd index).trans ?_
    by_cases ht : cmd.target = some index
    · rw [if_pos ht, filter_cons_of_pos (by simpa using ht)]
      exact ih.cons cmd
    · rw [if_neg ht, filter_cons_of_neg (by simpa using ht)]
      exact ih

theorem Walk.serialized_perm (walk : Walk cmds) :
    (serialized cmds walk).Perm (cmds.filter fun cmd => cmd.target.isSome) := by
  -- Induction on the commands, over a fixed list of indexes that has each of their targets once.
  have all : ∀ (order : List String) (cmds : List StorageCommand), order.Nodup →
      (∀ cmd ∈ cmds, ∀ i, cmd.target = some i → i ∈ order) →
      (order.flatMap (groupCommands cmds)).Perm (cmds.filter fun cmd => cmd.target.isSome) := by
    intro order cmds hnodup
    induction cmds with
    | nil =>
      intro _
      simp [groupCommands, groupOf]
    | cons cmd rest ih =>
      intro hcover
      have hrest := ih fun c hc => hcover c (mem_cons_of_mem _ hc)
      cases ht : cmd.target with
      | none =>
        rw [filter_cons_of_neg (by simp [ht])]
        refine (List.Perm.flatMap_left _ fun i _ => ?_).trans hrest
        simpa [ht] using groupCommands_cons rest cmd i
      | some k =>
        rw [filter_cons_of_pos (by simp [ht])]
        obtain ⟨xs, ys, rfl⟩ := append_of_mem (hcover cmd (mem_cons_self ..) k ht)
        have hk := nodup_middle.mp hnodup
        have others : ∀ l : List String, k ∉ l → (l.flatMap (groupCommands (cmd :: rest))).Perm
          (l.flatMap (groupCommands rest)) :=
          fun l hl => List.Perm.flatMap_left _ fun i hi => by
            have hne : ¬ k = i := fun h => hl (h ▸ hi)
            simpa [ht, hne] using groupCommands_cons rest cmd i
        have hnot := (nodup_cons.mp hk).1
        rw [mem_append, not_or] at hnot
        have hhere : (groupCommands (cmd :: rest) k).Perm (cmd :: groupCommands rest k) := by
          simpa [ht] using groupCommands_cons rest cmd k
        rw [flatMap_append, flatMap_cons] at hrest ⊢
        refine ((others xs hnot.1).append (hhere.append (others ys hnot.2))).trans ?_
        exact (perm_middle).trans (hrest.cons cmd)
  refine all walk.order cmds walk.order_nodup fun cmd hcmd i ht => ?_
  by_contra hno
  obtain ⟨hw, hb⟩ := walk.groups_of_notMem hno
  cases cmd with
  | write j op reply =>
    cases ht
    exact mem_keysOf.mp (mem_dedup.mpr (mem_filterMap.mpr ⟨_, hcmd, rfl⟩)) hw
  | batchWrite j ops reply =>
    cases ht
    exact mem_keysOf.mp (mem_dedup.mpr (mem_filterMap.mpr ⟨_, hcmd, rfl⟩)) hb
  | _ => simp [target] at ht

end Walk

section Shard
variable {env : ShardEnv} {shard : Shard} {index : String} {α : Type} {s' : Store}

theorem Returns.atIndex {m : StoreM α} {a : α} (h : Returns m (shard index) a s') :
    Returns (CameoDb.atIndex index m) shard a (update shard index s') := by
  unfold Returns CameoDb.atIndex
  rw [h]

theorem applyCommand_returns {cmd : StorageCommand} (ht : cmd.target = some index) {r : List Nat × Nat}
    (h : Returns (applyBatch (env.at index) cmd.ops) (shard index) r s') :
    Returns (applyCommand env cmd) shard (cmd.answer r.1) (update shard index s') := by
  cases cmd with
  | write i op reply =>
    cases ht
    have hone : Returns (applyWrite (env.at index) op) (shard index) (r.1.headD 0) s' := h.bind rfl
    exact Returns.atIndex (hone.attempt.bind rfl)
  | batchWrite i ops reply =>
    cases ht
    exact Returns.atIndex (h.attempt.bind rfl)
  | _ => simp [target] at ht

theorem applyCommands_steps {cs : List StorageCommand} (ht : ∀ cmd ∈ cs, cmd.target = some index) {start : Nat}
    {rs : List (List Nat × Nat)} {s s' : Store}
    (h : Steps (applyBatch (env.at index)) s (cs.map StorageCommand.ops) rs s')
    (hs : shard index = s) (hseqs : rs.map Prod.fst = runsFrom start (cs.map StorageCommand.ops)) :
    ∃ replies, Steps (applyCommand env) shard cs replies (update shard index s') ∧
      replies.flatten = answersFrom start cs := by
  induction cs generalizing shard s rs start with
  | nil =>
    cases h
    subst hs
    exact ⟨[], by rw [update_eq_self]; exact .nil shard, rfl⟩
  | cons cmd rest ih =>
    cases h with
    | cons first others =>
      subst hs
      obtain ⟨hseq, hmore⟩ := cons_eq_cons.mp hseqs
      obtain ⟨replies, hsteps, hreplies⟩ := ih (fun c hc => ht c (mem_cons_of_mem _ hc)) others
        (update_self index _ shard) hmore
      rw [update_idem] at hsteps
      refine ⟨_, .cons (applyCommand_returns (ht cmd (mem_cons_self ..)) first) hsteps, ?_⟩
      rw [flatten_cons, hreplies, hseq]
      rfl

theorem Steps.walk {f : α → ShardM (List (Nat × Reply))} {g : String → List α} (answers : String → List (Nat × Reply))
    (shard after : Shard) {order : List String} (hnodup : order.Nodup)
    (hout : ∀ index ∉ order, shard index = after index)
    (h : ∀ index ∈ order, ∀ shard' : Shard, shard' index = shard index →
      ∃ replies, Steps f shard' (g index) replies (update shard' index (after index)) ∧
        replies.flatten = answers index) :
    ∃ replies, Steps f shard (order.flatMap g) replies after ∧ replies.flatten = order.flatMap answers := by
  induction order generalizing shard with
  | nil =>
    obtain rfl : shard = after := funext fun index => hout index not_mem_nil
    exact ⟨[], .nil _, rfl⟩
  | cons i rest ih =>
    obtain ⟨hi, hrest⟩ := nodup_cons.mp hnodup
    obtain ⟨first, hfirst, hanswer⟩ := h i mem_cons_self shard rfl
    obtain ⟨more, hmore, hanswers⟩ := ih (update shard i (after i)) hrest
      (fun j hj => by
        by_cases hji : j = i
        · rw [hji, update_self]
        · rw [update_of_ne hji, hout j (not_mem_cons_of_ne_of_not_mem hji hj)])
      fun j hj shard' hsame =>
        h j (mem_cons_of_mem _ hj) shard' (hsame.trans (update_of_ne (fun hc : j = i => hi (hc ▸ hj)) _ _))
    exact ⟨first ++ more, hfirst.append hmore, by rw [flatten_append, hanswer, hanswers]; rfl⟩

end Shard

/-! ### Answers and what was logged under them -/

/-- The numbers an answer carries. -/
def Reply.seqs : Reply → List Nat
  | single (.ok seq) => [seq]
  | batch (.ok seqs) => seqs
  | _ => []

/-- An answer sent to the caller of a command, in its shape and with one number for each of its operations. -/
def Answers (cmd : StorageCommand) (answer : Nat × Reply) : Prop :=
  match cmd with
  | .write _ _ reply => ∃ seq, answer = (reply, .single (.ok seq))
  | .batchWrite _ ops reply => ∃ seqs, answer = (reply, .batch (.ok seqs)) ∧ seqs.length = ops.length
  | _ => False

def told (cmds : List StorageCommand) (answers : List (Nat × Reply)) (index : String) : List (Nat × String) :=
  (cmds.zip answers).flatMap fun x => if x.1.target = some index then x.2.2.seqs.zip (x.1.ops.map WalOp.id) else []

section Told
variable {index : String} {cs : List StorageCommand}

theorem answersFrom_answers (hcs : ∀ cmd ∈ cs, cmd.target = some index) (start : Nat) :
    List.Forall₂ Answers cs (answersFrom start cs) := by
  induction cs generalizing start with
  | nil => exact .nil
  | cons cmd rest ih =>
    have hrest := ih (fun c hc => hcs c (mem_cons_of_mem _ hc)) (start + cmd.ops.length)
    have ht := hcs cmd (mem_cons_self ..)
    cases cmd with
    | write i op reply => exact .cons ⟨start, rfl⟩ hrest
    | batchWrite i ops reply => exact .cons ⟨_, rfl, length_range'⟩ hrest
    | _ => simp [target] at ht

theorem told_append {xs ys : List StorageCommand} {as bs : List (Nat × Reply)} (h : List.Forall₂ Answers xs as) :
    told (xs ++ ys) (as ++ bs) index = told xs as index ++ told ys bs index := by
  rw [told, zip_append h.length_eq, flatMap_append]
  rfl

theorem told_of_ne {i : String} (hcs : ∀ cmd ∈ cs, cmd.target = some i) (hne : i ≠ index)
    (answers : List (Nat × Reply)) : told cs answers index = [] := by
  rw [told, flatMap_eq_nil_iff]
  intro x hx
  rw [hcs x.1 (of_mem_zip hx).1, if_neg (by simpa using hne)]

theorem told_answersFrom (hcs : ∀ cmd ∈ cs, cmd.target = some index) (start : Nat) :
    told cs (answersFrom start cs) index =
      (range' start (cs.flatMap StorageCommand.ops).length).zip ((cs.flatMap StorageCommand.ops).map WalOp.id) := by
  induction cs generalizing start with
  | nil => rfl
  | cons cmd rest ih =>
    have ht := hcs cmd (mem_cons_self ..)
    have hrest := ih (fun c hc => hcs c (mem_cons_of_mem _ hc)) (start + cmd.ops.length)
    have hone : told [cmd] (cmd.answer (range' start cmd.ops.length)) index =
        (range' start cmd.ops.length).zip (cmd.ops.map WalOp.id) := by
      cases cmd with
      | write | batchWrite => simp [told, answer, StorageCommand.ops, Reply.seqs, ht]
      | _ => simp [target] at ht
    have hanswers : List.Forall₂ Answers [cmd] (cmd.answer (range' start cmd.ops.length)) := by
      have := answersFrom_answers (fun c (hc : c ∈ [cmd]) => hcs c (by simp_all)) start
      simpa [answersFrom] using this
    calc told (cmd :: rest) (answersFrom start (cmd :: rest)) index
        = told [cmd] (cmd.answer (range' start cmd.ops.length)) index ++
            told rest (answersFrom (start + cmd.ops.length) rest) index := told_append hanswers
      _ = _ := by
        rw [hone, hrest, flatMap_cons, length_append, ← range'_append_1, map_append,
          zip_append (by simp)]

end Told

/-! ### Both ways of applying a drain -/

section Both
variable {env : ShardEnv} {cmds : List StorageCommand} {shard after : Shard} {start : String → Nat}

/-- What the thread does for an index, in the phase that walks it. -/
def drainIndex (env : ShardEnv) (walk : Walk cmds) (index : String) : StoreM (List (Nat × Reply)) :=
  if index ∈ walk.mixed then drainMixed (env.at index) (writeGroup cmds index) (batchGroup cmds index)
  else if index ∈ walk.writes then drainWrites (env.at index) (writeGroup cmds index)
  else drainBatches (env.at index) (batchGroup cmds index)

theorem drainIndex_returns {walk : Walk cmds} {index : String} {s s' : Store} {first fresh : Nat}
    (hmem : index ∈ walk.order) (hfits : (groupOps cmds index).length < u64Limit)
    (h : Returns (applyBatch (env.at index) (groupOps cmds index)) s
    (range' first (groupOps cmds index).length, fresh) s') :
    Returns (drainIndex env walk index) s (answersFrom first (groupCommands cmds index)) s' := by
  rw [groupOps_eq] at hfits h
  unfold drainIndex
  split_ifs with hmixed hwrites
  · exact drainMixed_returns index hfits h
  · obtain ⟨-, hnone⟩ := walk.mem_writes.mp hwrites
    rw [hnone, flatMap_nil, append_nil, length_map] at h
    rw [groupCommands, hnone, map_nil, append_nil]
    exact drainWrites_returns index h
  · have hbatches : index ∈ walk.batches := by simpa [Walk.order, hmixed, hwrites] using hmem
    obtain ⟨-, hnone⟩ := walk.mem_batches.mp hbatches
    rw [hnone, map_nil, nil_append] at h
    rw [groupCommands, hnone, map_nil, nil_append]
    exact drainBatches_returns index h

theorem drain_returns (walk : Walk cmds) (hfits : ∀ index, (groupOps cmds index).length < u64Limit)
    (h : ∀ index, ∃ fresh, Returns (applyBatch (env.at index) (groupOps cmds index)) (shard index)
      (range' (start index) (groupOps cmds index).length, fresh) (after index)) :
    Returns (drain env cmds walk) shard (walk.order.flatMap (groupAnswers cmds start)) after := by
  obtain ⟨replies, hsteps, hflat⟩ := Steps.walk (f := fun index => atIndex index (drainIndex env walk index))
    (g := fun index => [index]) (groupAnswers cmds start) shard after walk.order_nodup
    (fun index hno => by
      obtain ⟨fresh, hone⟩ := h index
      obtain ⟨hw, hb⟩ := walk.groups_of_notMem hno
      rw [groupOps_eq, hw, hb] at hone
      exact congrArg Result.state hone)
    fun index hmem shard' hsame => by
      obtain ⟨fresh, hone⟩ := h index
      rw [← hsame] at hone
      exact ⟨[_], .cons (Returns.atIndex (drainIndex_returns hmem (hfits index) hone)) (.nil _), flatten_singleton⟩
  rw [flatMap_singleton'] at hsteps
  obtain ⟨front, third, s₂, rfl, hfront, hthird⟩ := hsteps.of_append
  obtain ⟨first, second, s₁, rfl, hfirst, hsecond⟩ := hfront.of_append
  obtain ⟨-, -, hlast⟩ := nodup_append'.mp walk.order_nodup
  obtain ⟨-, -, hnext⟩ := nodup_append'.mp (nodup_append'.mp walk.order_nodup).1
  replace hfirst := hfirst.congr fun index hmem => congrArg (atIndex index) (if_pos hmem)
  replace hsecond := hsecond.congr fun index hmem => congrArg (atIndex index)
    ((if_neg fun hm => hnext hm hmem).trans (if_pos hmem))
  replace hthird := hthird.congr fun index hmem => congrArg (atIndex index)
    ((if_neg fun hm => hlast (mem_append_left _ hm) hmem).trans (if_neg fun hw => hlast (mem_append_right _ hw) hmem))
  rw [← hflat, flatten_append, flatten_append]
  exact hfirst.returns.bind (hsecond.returns.bind (hthird.returns.bind rfl))

theorem applySerially_returns (walk : Walk cmds)
    (h : ∀ index, ∃ rs, Steps (applyBatch (env.at index)) (shard index)
    ((groupCommands cmds index).map StorageCommand.ops) rs
        (after index) ∧ rs.map Prod.fst = runsFrom (start index) ((groupCommands cmds index).map StorageCommand.ops)) :
    Returns (applySerially env cmds walk) shard (walk.order.flatMap (groupAnswers cmds start)) after := by
  obtain ⟨replies, hsteps, hflat⟩ := Steps.walk (groupAnswers cmds start) shard after walk.order_nodup
    (fun index hno => by
      obtain ⟨rs, hone, -⟩ := h index
      obtain ⟨hw, hb⟩ := walk.groups_of_notMem hno
      rw [groupCommands, hw, hb] at hone
      generalize after index = last at hone
      cases hone
      rfl)
    fun index _ shard' hsame => by
      obtain ⟨rs, hone, hseqs⟩ := h index
      exact applyCommands_steps (fun cmd => target_of_mem_groupCommands) hone hsame hseqs
  rw [← hflat]
  exact hsteps.returns.bind rfl

theorem answers_order (order : List String) :
    List.Forall₂ Answers (order.flatMap (groupCommands cmds)) (order.flatMap (groupAnswers cmds start)) := by
  induction order with
  | nil => exact .nil
  | cons i rest ih => exact rel_append (answersFrom_answers (fun _ => target_of_mem_groupCommands) _) ih

theorem told_order {order : List String} (hnodup : order.Nodup) (index : String) :
    told (order.flatMap (groupCommands cmds)) (order.flatMap (groupAnswers cmds start)) index =
      if index ∈ order then told (groupCommands cmds index) (groupAnswers cmds start index) index else [] := by
  induction order with
  | nil => rfl
  | cons i rest ih =>
    obtain ⟨hi, hrest⟩ := nodup_cons.mp hnodup
    have htarget : ∀ cmd ∈ groupCommands cmds i, cmd.target = some i := fun _ => target_of_mem_groupCommands
    rw [flatMap_cons, flatMap_cons, groupAnswers, told_append (answersFrom_answers htarget _), ih hrest]
    by_cases hii : i = index
    · subst hii
      rw [if_neg hi, if_pos mem_cons_self, append_nil]
      rfl
    · rw [told_of_ne htarget hii, nil_append]
      have : index ∈ i :: rest ↔ index ∈ rest := by
        rw [mem_cons, or_iff_right (Ne.symm hii)]
      simp only [this]

end Both

def reached (env : ShardEnv) (schemas : String → Option IndexSchema) (events : String → List Event) : Shard :=
  fun index => runEvents (env.at index) (Store.initial (schemas index)) (events index)

/-- The drain of any list of commands, from any state the indexes' runs reach, when every operation would be accepted on
    its own. The thread's answers are those of the commands applied one at a time in the order it serializes them; each
    index holds the same rows and after a commit the same documents; each caller is told the numbers its own operations
    were logged under, in their order; and no number is given twice. -/
theorem coalescing_transparent (env : ShardEnv) (schemas : String → Option IndexSchema) (events : String → List Event)
    (cmds : List StorageCommand) (walk : Walk cmds)
    (fits : ∀ index, ((events index).map Event.size).sum +
      ((cmds.filter fun cmd => cmd.target = some index).flatMap StorageCommand.ops).length < u64Limit - 1)
    (accepted : ∀ cmd ∈ cmds, ∀ index, cmd.target = some index → ∀ op ∈ cmd.ops,
      Accepted (env.at index) (reached env schemas events index) op) :
    ∃ replies merged serial,
      Returns (drain env cmds walk) (reached env schemas events) replies merged ∧
      Returns (applySerially env cmds walk) (reached env schemas events) replies serial ∧
      (serialized cmds walk).Perm (cmds.filter fun cmd => cmd.target.isSome) ∧
      List.Forall₂ Answers (serialized cmds walk) replies ∧
      ∀ index, (merged index).tables.data = (serial index).tables.data ∧
        SameAfterCommit (env.at index) (merged index) (serial index) ∧
        logOf (merged index).redb.all =
          logOf (reached env schemas events index).redb.all ++ told (serialized cmds walk) replies index ∧
        ((logOf (merged index).redb.all).map Prod.fst).Nodup := by
  have hlen : ∀ index, (groupOps cmds index).length =
      ((cmds.filter fun cmd => cmd.target = some index).flatMap StorageCommand.ops).length := fun index =>
    ((groupCommands_perm cmds index).flatMap_right StorageCommand.ops).length_eq
  have each : ∀ index, ∃ start a b, _ := fun index => by
    have hfits := fits index
    rw [← hlen] at hfits
    have hlive : Live (env.at index) False _ (reached env schemas events index) _ (reached env schemas events index) :=
      (Live.initial (schemas index)).run (events index) (by omega)
    refine hlive.coalesce ((groupCommands cmds index).map StorageCommand.ops) ?_ fun op hop => ?_
    · rw [← flatMap_def, ← groupOps]
      omega
    · obtain ⟨cmd, hcmd, hop⟩ := mem_flatMap.mp (flatMap_def ▸ hop)
      obtain ⟨hmem, ht⟩ := mem_filter.mp ((groupCommands_perm cmds index).mem_iff.mp hcmd)
      exact accepted cmd hmem index (by simpa using ht) op hop
  simp only [← flatMap_def, ← groupOps.eq_1] at each
  choose start merged serial hmerged hserial htransparent using each
  refine ⟨_, merged, serial, drain_returns walk (fun index => ?_) hmerged, applySerially_returns walk hserial,
    walk.serialized_perm, answers_order walk.order, fun index =>
      ⟨(htransparent index).data, (htransparent index).committed, ?_, ?_⟩⟩
  · have := fits index
    rw [← hlen] at this
    omega
  · rw [(htransparent index).log, serialized, ← Walk.order, told_order walk.order_nodup]
    congr 1
    split
    · exact (told_answersFrom (fun _ => target_of_mem_groupCommands) _).symm
    · next hno =>
      obtain ⟨hw, hb⟩ := walk.groups_of_notMem hno
      simp [groupOps_eq, hw, hb]
  · exact List.Pairwise.map _ (fun _ _ h => Nat.ne_of_lt h) (htransparent index).sorted

def plainShard : ShardEnv := ⟨plainEnv.config, plainEnv.parsers⟩

/-- Three callers that touch one id of one index, a fourth on another index, and a commit. -/
def crowded : List StorageCommand :=
  [.batchWrite "products" [.put "a" none, .put "b" none] 1, .write "products" (.put "a" (some (.object []))) 2,
    .write "orders" (.put "a" none) 3, .commit "products" 4, .batchWrite "products" [.delete "a"] 5]

def crowdedWalk : Walk crowded where
  mixed := ["products"]
  writes := ["orders"]
  batches := []
  mixed_perm := by decide +kernel
  writes_perm := by decide +kernel
  batches_perm := by decide +kernel

def oneProduct (index : String) : List Event :=
  if index = "products" then [.call (.applyBatch [.put "c" none]) [] 0] else []

theorem coalescing_transparent_crowded :
    ∃ replies merged serial,
      Returns (drain plainShard crowded crowdedWalk) (reached plainShard (fun _ => none) oneProduct) replies merged ∧
      Returns (applySerially plainShard crowded crowdedWalk)
      (reached plainShard (fun _ => none) oneProduct) replies serial ∧
      ∀ index, (merged index).tables.data = (serial index).tables.data ∧
        SameAfterCommit (plainShard.at index) (merged index) (serial index) := by
  have fits : ∀ index, ((oneProduct index).map Event.size).sum +
      ((crowded.filter fun cmd => cmd.target = some index).flatMap StorageCommand.ops).length < u64Limit - 1 := by
    intro index
    by_cases hp : index = "products"
    · subst hp
      decide +kernel
    · by_cases ho : index = "orders"
      · subst ho
        decide +kernel
      · have hp' := Ne.symm hp
        have ho' := Ne.symm ho
        simp [oneProduct, crowded, target, hp, hp', ho', u64Limit]
  have accepted : ∀ cmd ∈ crowded, ∀ index, cmd.target = some index → ∀ op ∈ cmd.ops,
      Accepted (plainShard.at index) (reached plainShard (fun _ => none) oneProduct index) op := by
    have all : ∀ cmd ∈ crowded, ∀ op ∈ cmd.ops, ∀ index ∈ cmd.target,
        Accepted (plainShard.at index) (reached plainShard (fun _ => none) oneProduct index) op := by decide +kernel
    exact fun cmd hcmd index ht op hop => all cmd hcmd op hop index ht
  obtain ⟨replies, merged, serial, hdrain, hserial, -, -, hindex⟩ :=
    coalescing_transparent plainShard (fun _ => none) oneProduct crowded crowdedWalk fits accepted
  exact ⟨replies, merged, serial, hdrain, hserial, fun index => ⟨(hindex index).1, (hindex index).2.1⟩⟩

end CameoDb
