import CameoDb.Client.Ingest

/-! # A parallel load ends like a sequential one

Two batches in flight together have no id in common, so the order their rows land in does not matter. -/

namespace CameoDb.Ingest
open List CsvIngest Transition

variable {I D H : Type}

def ids (rows : List (I × D)) : List I := rows.map Prod.fst

/-- The rows a load sends: those with an id. -/
def withIds (rows : List (Option I × D)) : List (I × D) := rows.filterMap fun row => row.1.map (·, row.2)

/-- A batch without a flag has no id that was sent before it. -/
def Flagged (sent : List I) : List (LoadBatch I D) → Prop
  | [] => True
  | batch :: rest => (batch.repeats = false → ∀ id ∈ ids batch.rows, id ∉ sent) ∧ Flagged (sent ++ ids batch.rows) rest

section Batches
variable [DecidableEq H] {hash : I → H} {s : CsvIngest I D H} {sent : List I}

/-- The rows gathered so far, behind the ids that were sent. -/
structure Gathers (hash : I → H) (sent : List I) (s : CsvIngest I D H) : Prop where
  seen : ∀ id ∈ sent ++ ids s.rows, hash id ∈ s.seen
  flag : s.batchRepeats = false → ∀ id ∈ ids s.rows, id ∉ sent

theorem Gathers.batches (h : Gathers hash sent s) (batchSize : Nat) (rows : List (Option I × D)) :
    Flagged sent (s.batches hash batchSize rows) ∧ (s.batches hash batchSize rows).flatMap LoadBatch.rows =
    s.rows ++ withIds rows := by
  induction rows generalizing s sent with
  | nil =>
    have hflag := h.flag
    cases hrows : s.rows <;> simp_all [batches, flush, Flagged, withIds]
  | cons row rest ih =>
    obtain ⟨_ | id, doc⟩ := row
    · simpa [batches, pushRow, withIds] using ih h
    · -- An id that was sent before has its hash in the ledger, whatever else has that hash.
      set next : CsvIngest I D H :=
        { rows := s.rows ++ [(id, doc)], batchRepeats := s.batchRepeats || hash id ∈ s.seen,
          seen := insert (hash id) s.seen } with hnext
      have hnew : Gathers hash sent next := by
        obtain ⟨hseen, hflag⟩ := h
        constructor <;> grind [ids]
      by_cases hfull : batchSize.max 1 ≤ next.rows.length
      · have hpush : s.pushRow hash batchSize (some id, doc) =
            (⟨[], false, next.seen⟩, some ⟨next.rows, next.batchRepeats⟩) := by
          rw [pushRow, if_pos hfull, flush, if_neg (by simp)]
        have hsent : Gathers hash (sent ++ ids next.rows) (⟨[], false, next.seen⟩ : CsvIngest I D H) :=
          ⟨by simpa [ids] using hnew.seen, by simp [ids]⟩
        obtain ⟨hflags, hrows⟩ := ih hsent
        rw [batches, hpush]
        exact ⟨⟨hnew.flag, hflags⟩, by simpa [hnext, withIds] using hrows⟩
      · have hpush : s.pushRow hash batchSize (some id, doc) = (next, none) := if_neg hfull
        rw [batches, hpush]
        obtain ⟨hflags, hrows⟩ := ih hnew
        exact ⟨hflags, by simpa [hnext, withIds] using hrows⟩

end Batches

variable [DecidableEq I]

/-- The batches in flight share no id with one another, nor the queue's unflagged ones with what was sent. Applying
    what is left of the batches in flight, and then the queue, gives `target`. -/
structure Load.Sound (target : I → Option D) (s : Load I D) : Prop where
  apart : s.inFlight.Pairwise fun a b => ∀ id ∈ ids a, id ∉ ids b
  flagged : ∃ sent, (∀ rows ∈ s.inFlight, ∀ id ∈ ids rows, id ∈ sent) ∧ Flagged sent s.queue
  reaches : (s.inFlight.flatten ++ s.queue.flatMap LoadBatch.rows).foldl put s.index = target

theorem foldl_put {rows : List (I × D)} {row : I × D} (h : row.1 ∉ ids rows) (index : I → Option D) :
    (rows ++ [row]).foldl put index = rows.foldl put (put index row) := by
  induction rows generalizing index with
  | nil => rfl
  | cons first rest ih =>
    have hne : row.1 ≠ first.1 := fun heq => h (by simp [ids, heq])
    rw [cons_append, foldl_cons, ih (fun hmem => h (by simpa [ids] using .inr (by simpa [ids] using hmem))), foldl_cons]
    congr 1
    exact Function.update_comm hne.symm ..

theorem Load.Sound.step {target : I → Option D} {parallel : Nat} {s s' : Load I D} {e : LoadStep} (h : s.Sound target)
    (hstep : s.step parallel e = some s') : s'.Sound target := by
  obtain ⟨hapart, ⟨sent, hsent, hflagged⟩, hreaches⟩ := h
  cases e with
  | send =>
    simp only [Load.step] at hstep
    split at hstep
    · next batch rest hqueue =>
      split_ifs at hstep with hwaits
      cases hstep
      rw [hqueue] at hflagged hreaches
      refine ⟨?_, ⟨sent ++ ids batch.rows, by grind, hflagged.2⟩, by simpa using hreaches⟩
      rw [pairwise_append]
      refine ⟨hapart, pairwise_singleton .., ?_⟩
      cases hrepeats : batch.repeats <;> grind [Flagged]
    · cases hstep
  | land k =>
    simp only [Load.step] at hstep
    split at hstep
    · next row rest hk =>
      cases hstep
      obtain ⟨before, after, hlist, hset, -⟩ := split_at hk
      rw [hset rest]
      rw [hlist] at hapart hsent hreaches
      have hother : row.1 ∉ ids before.flatten := by
        intro hmem
        obtain ⟨found, hfound, heq⟩ := mem_map.mp hmem
        obtain ⟨rows, hrows, hin⟩ := mem_flatten.mp hfound
        exact (pairwise_append.mp hapart).2.2 rows hrows _ mem_cons_self row.1 (mem_map.mpr ⟨found, hin, heq⟩)
          mem_cons_self
      have hrest : ∀ id ∈ ids rest, id ∈ ids (row :: rest) := fun id hid => mem_cons_of_mem _ hid
      refine ⟨?_, ⟨sent, by grind, hflagged⟩, ?_⟩
      · simp only [pairwise_append, pairwise_cons, forall_mem_cons] at hapart ⊢
        obtain ⟨hbefore, ⟨hthis, hafter⟩, hcross⟩ := hapart
        exact ⟨hbefore, ⟨fun b hb id hid => hthis b hb id (hrest id hid), hafter⟩,
          fun a ha => ⟨fun id hid hmem => (hcross a ha).1 id hid (hrest id hmem), (hcross a ha).2⟩⟩
      rw [← hreaches, flatten_append, flatten_append, append_assoc, foldl_append, ← foldl_put hother]
      simp
    · cases hstep
  | settle k =>
    simp only [Load.step] at hstep
    split at hstep
    · next hk =>
      cases hstep
      obtain ⟨before, after, hlist, -, herase⟩ := split_at hk
      rw [herase]
      rw [hlist] at hapart hsent hreaches
      exact ⟨by grind, ⟨sent, by grind, hflagged⟩, by simpa using hreaches⟩
    · cases hstep

theorem foldl_put_apply (rows : List (I × D)) (index : I → Option D) (id : I) :
    rows.foldl put index id = ((rows.reverse.find? (·.1 = id)).map Prod.snd).or (index id) := by
  induction rows generalizing index with
  | nil => rfl
  | cons row rest ih =>
    rw [foldl_cons, ih, reverse_cons, find?_append]
    cases rest.reverse.find? (·.1 = id) with
    | some found => rfl
    | none => simp [put, Function.update_apply]; grind

theorem Load.step_of_not_done {parallel : Nat} (hparallel : 0 < parallel) {s : Load I D}
    (h : ¬ (s.queue = [] ∧ s.inFlight = [])) : ∃ e s', s.step parallel e = some s' := by
  cases hflight : s.inFlight with
  | cons rows rest =>
    cases rows with
    | nil => exact ⟨.settle 0, _, by simp [Load.step, hflight]; rfl⟩
    | cons row rows => exact ⟨.land 0, _, by simp [Load.step, hflight]; rfl⟩
  | nil =>
    cases hqueue : s.queue with
    | nil => exact absurd ⟨hqueue, hflight⟩ h
    | cons batch rest => exact ⟨.send, _, by simp [Load.step, hflight, hqueue, Nat.not_le.mpr hparallel]; rfl⟩

/-- Whatever the hash of the ids, the size of the batches and the number in flight, a load goes on until everything
    has landed, and then each id has the document of its last row. -/
theorem parallel_load_sequential [DecidableEq H] (hash : I → H) (batchSize parallel : Nat) (hparallel : 0 < parallel)
    (rows : List (Option I × D)) (index : I → Option D) (steps : List LoadStep) (s : Load I D)
    (hrun : run (Load.step parallel) ⟨new.batches hash batchSize rows, [], index⟩ steps = some s) :
    (¬ (s.queue = [] ∧ s.inFlight = []) → ∃ e s', s.step parallel e = some s') ∧
    (s.queue = [] ∧ s.inFlight = [] →
      ∀ id, s.index id = (((withIds rows).reverse.find? (·.1 = id)).map Prod.snd).or (index id)) := by
  have hnew : Gathers hash [] (new : CsvIngest I D H) := ⟨by simp [new, ids], by simp [new, ids]⟩
  obtain ⟨hflagged, hrows⟩ := hnew.batches batchSize rows
  have hsound : s.Sound ((withIds rows).foldl put index) := by
    refine run_keeps (fun s e s' hs hstep => hs.step hstep) ?_ hrun
    exact ⟨.nil, ⟨[], by simp, hflagged⟩, by rw [hrows]; rfl⟩
  refine ⟨Load.step_of_not_done hparallel, fun hdone id => ?_⟩
  have hreaches := hsound.reaches
  rw [hdone.1, hdone.2] at hreaches
  rw [← foldl_put_apply, ← hreaches]
  rfl

def threeRows : Load Nat Char := ⟨new.batches id 1 [(some 1, 'a'), (some 2, 'b'), (some 1, 'c')], [], fun _ => none⟩

/-- The first two batches are in flight together, and the second lands first. -/
def secondFirst : List LoadStep := [.send, .send, .land 1, .settle 1, .land 0, .settle 0, .send, .land 0, .settle 0]

theorem parallel_load_sequential_threeRows : ∃ s, run (Load.step 2) threeRows secondFirst = some s ∧
    s.index 1 = some 'c' := by
  have hdone : (run (Load.step 2) threeRows secondFirst).map (fun s => (s.queue.isEmpty, s.inFlight.isEmpty)) =
    some (true, true) := rfl
  obtain ⟨s, hend, hs⟩ := Option.map_eq_some_iff.mp hdone
  obtain ⟨hqueue, hflight⟩ := Prod.mk.inj hs
  obtain ⟨-, hlast⟩ := parallel_load_sequential id 1 2 (by decide) _ _ secondFirst s hend
  exact ⟨s, hend, hlast ⟨isEmpty_iff.mp hqueue, isEmpty_iff.mp hflight⟩ 1⟩

end CameoDb.Ingest
