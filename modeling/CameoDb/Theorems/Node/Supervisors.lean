import CameoDb.Node.Supervisor
import Mathlib.Data.List.Nodup

/-! Supervisors and the writes that signal them: while every commit of a supervisor finds its writer, the entries of
    the map are the supervisors that have not ended, and a write that was signalled and not committed has one. One
    that ends because its writer is gone leaves its entry. -/

namespace CameoDb
open List Function Option Transition SupervisedShard

variable {I : Type} {s s' : SupervisedShard I} {t u : TaskId} {task : Supervisor I} {k : WriteId} {w : ShardWrite I}

/-- A commit is sent to the writer that serves, and is answered. -/
def FindsWriter (s : SupervisedShard I) : SupervisorStep I → Prop
  | .send t => ∀ task ∈ s.tasks t, task.phase = .sending → task.writer = s.writer ∧ s.serving = true
  | .dropped t => ∀ task ∈ s.tasks t, task.phase ≠ .replyDropped
  | _ => True

/-- No registered task has ended. -/
def NoneEnded (s : SupervisedShard I) : Prop :=
  ∀ index t, s.supervisors index = some t → ∃ task ∈ s.tasks t, task.phase ≠ .ended

namespace SupervisedShard

/-- The supervisor of an index whose commit is not the last word: it has not ended, and if its commit succeeded
    something arrived. -/
def Attended (s : SupervisedShard I) (index : I) : Prop :=
  ∃ t task, s.supervisors index = some t ∧ s.tasks t = some task ∧ (task.phase = .replied true → task.pending ≠ 0)

/-- The invariant of a supervised shard. -/
structure Sound (s : SupervisedShard I) : Prop where
  entry : ∀ index t, s.supervisors index = some t → ∃ task, s.tasks t = some task ∧
    task.index = index ∧ task.phase ≠ .ended
  registered : ∀ t task, s.tasks t = some task → task.phase ≠ .ended → s.supervisors task.index = some t
  awaiting : ∀ t ∈ s.commits, ∃ task, s.tasks t = some task ∧ task.phase = .awaiting
  once : s.commits.Nodup
  spawned : ∀ t, s.spawned ≤ t → s.tasks t = none
  written : ∀ k, s.written ≤ k → s.writes k = none
  signalled : ∀ k w, s.writes k = some w → w.phase = .signalled → w.committed = false → s.Attended w.index

theorem sound_initial : (initial : SupervisedShard I).Sound :=
  ⟨fun _ _ h => (nomatch h), fun _ _ h => (nomatch h), fun _ h => (nomatch h), .nil, fun _ _ => rfl, fun _ _ => rfl,
    fun _ _ h => nomatch h⟩

theorem Sound.advance (h : s.Sound) (htask : s.tasks t = some task) (hlive : task.phase ≠ .ended)
    {task' : Supervisor I} {commits : List TaskId}
    (hindex : task'.index = task.index) (hlive' : task'.phase ≠ .ended) (honce : commits.Nodup)
    (hcommits : ∀ u ∈ commits, u = t ∧ task'.phase = .awaiting ∨ u ≠ t ∧ u ∈ s.commits)
    (hreplied : task'.phase = .replied true → task'.pending ≠ 0 ∨
      ∀ k w, s.writes k = some w → w.index = task.index → w.phase = .signalled → w.committed = true) :
    ({ s.setTask t task' with commits } : SupervisedShard I).Sound := by
  obtain ⟨entry, registered, awaiting, -, spawned, written, signalled⟩ := h
  refine ⟨?_, ?_, ?_, honce, ?_, written, ?_⟩ <;> simp only [SupervisedShard.setTask]
  · grind [update_apply]
  · grind [update_apply]
  · grind [update_apply]
  · grind [update_apply]
  · intro k w hw hphase hcommitted
    obtain ⟨u, found, hu, hfound, hpending⟩ := signalled k w hw hphase hcommitted
    exact ⟨u, if u = t then task' else found, hu, by grind [update_apply], by grind⟩

theorem Sound.setTask (h : s.Sound) (htask : s.tasks t = some task) (hlive : task.phase ≠ .ended) {task' : Supervisor I}
    (hindex : task'.index = task.index) (hlive' : task'.phase ≠ .ended)
    (hcommits : t ∈ s.commits → task'.phase = .awaiting)
    (hreplied : task'.phase = .replied true → task'.pending ≠ 0) : (s.setTask t task').Sound := by
  exact h.advance htask hlive hindex hlive' h.once (by grind) (fun hreply => .inl (hreplied hreply))

theorem Sound.setWrite (h : s.Sound) (hk : k < s.written) {w' : ShardWrite I}
    (hsignalled : w'.phase = .signalled → w'.committed = false → s.Attended w'.index) : (s.setWrite k w').Sound := by
  obtain ⟨entry, registered, awaiting, once, spawned, written, signalled⟩ := h
  refine ⟨entry, registered, awaiting, once, spawned, ?_, ?_⟩ <;> simp only [SupervisedShard.setWrite]
  · grind [update_apply]
  · intro j x hx hphase hcommitted
    by_cases hne : j = k
    · obtain rfl : x = w' := by grind
      exact hsignalled hphase hcommitted
    · exact signalled j x (by grind) hphase hcommitted

theorem nudge_eq (htask : s.tasks t = some task) : s.nudge t = s.setTask t task.trySend := by
  have htasks : (fun u => if u = t then (s.tasks u).map Supervisor.trySend else s.tasks u) = update s.tasks t
      (some task.trySend) := by
    funext u
    grind [update_apply]
  simp only [nudge, SupervisedShard.setTask, htasks]

theorem trySend_spec : task.trySend.index = task.index ∧ task.trySend.phase = task.phase ∧
    (task.phase ≠ .ended → task.trySend.pending ≠ 0) := by
  grind [Supervisor.trySend, supervisorChannel]

theorem Sound.nudge (h : s.Sound) {index : I} (hentry : s.supervisors index = some t) :
    (s.nudge t).Sound ∧ (s.nudge t).Attended index := by
  obtain ⟨task, htask, -, hlive⟩ := h.entry index t hentry
  obtain ⟨hindex, hphase, hpending⟩ := @trySend_spec I task
  rw [nudge_eq htask]
  refine ⟨h.setTask htask hlive hindex (by rwa [hphase]) (fun hmem => ?_) (fun _ => hpending hlive),
    t, task.trySend, hentry, update_self .., fun _ => hpending hlive⟩
  grind [h.awaiting t hmem]

theorem Sound.lt_written (h : s.Sound) (hw : s.writes k = some w) : k < s.written := by
  grind [h.written k]

theorem Sound.not_awaited (h : s.Sound) (htask : s.tasks t = some task) (hphase : task.phase ≠ .awaiting) :
    t ∉ s.commits := by
  intro hmem
  grind [h.awaiting t hmem]

theorem Sound.goOn (h : s.Sound) (htask : s.tasks t = some task)
    (hlive : task.phase ≠ .ended ∧ task.phase ≠ .awaiting) {phase : SupervisorPhase}
    (hphase : phase ≠ .ended ∧ phase ≠ .replied true) : (s.advance t task phase).Sound :=
  h.setTask htask hlive.1 rfl hphase.1 (fun hmem => absurd hmem (h.not_awaited htask hlive.2)) fun hreplied =>
    absurd hreplied hphase.2

theorem Sound.send (h : s.Sound) (htask : s.tasks t = some task) (hphase : task.phase = .sending) :
    ({ s.advance t task .awaiting with commits := s.commits ++ [t] } : SupervisedShard I).Sound := by
  have hnot : t ∉ s.commits := h.not_awaited htask (by grind)
  refine h.advance htask (by grind) rfl nofun ?_ (by grind) nofun
  rw [nodup_append]
  exact ⟨h.once, nodup_singleton _, by grind⟩

/-- The writer's crash: the replies that were awaited are dropped. -/
theorem Sound.crash (h : s.Sound) :
    ({ s with
      serving := false
      commits := []
      tasks := fun t => (s.tasks t).map fun task => if t ∈ s.commits then
        { task with phase := .replyDropped } else task } :
      SupervisedShard I).Sound := by
  obtain ⟨entry, registered, awaiting, -, spawned, written, signalled⟩ := h
  refine ⟨?_, ?_, nofun, .nil, ?_, written, fun k w hw hphase hcommitted => ?_⟩
  · grind
  · grind [map_eq_some_iff]
  · grind
  · obtain ⟨t, task, ht, htask, hpending⟩ := signalled k w hw hphase hcommitted
    exact ⟨t, _, ht, map_eq_some_iff.mpr ⟨task, htask, rfl⟩, by grind⟩

theorem Sound.noneEnded (h : s.Sound) : NoneEnded s := by
  intro index t hentry
  obtain ⟨task, htask, -, hlive⟩ := h.entry index t hentry
  exact ⟨task, htask, hlive⟩

theorem Sound.supervised (h : s.Sound) {index : I} (hattended : s.Attended index) : s.Supervised index := by
  obtain ⟨t, -, hentry, -⟩ := hattended
  obtain ⟨task, htask, -, hlive⟩ := h.entry index t hentry
  exact ⟨t, task, hentry, htask, hlive⟩

/-- A supervisor that ends otherwise than by leaving has its entry still. -/
theorem Sound.ended_entry (h : s.Sound) (htask : s.tasks t = some task) (hlive : task.phase ≠ .ended) :
    ¬ NoneEnded (s.advance t task .ended) := by
  intro hnone
  obtain ⟨found, hfound, hphase⟩ := hnone task.index t (h.registered t task htask hlive)
  cases (update_self ..).symm.trans hfound
  exact hphase rfl

variable [DecidableEq I]

theorem Sound.commitIndex (h : s.Sound) (index : I) : (s.commitIndex index).Sound := by
  obtain ⟨entry, registered, awaiting, once, spawned, written, signalled⟩ := h
  refine ⟨entry, registered, awaiting, once, spawned, ?_, fun k w hw hphase hcommitted => ?_⟩
  · grind [SupervisedShard.commitIndex]
  · obtain ⟨x, hx, rfl⟩ := map_eq_some_iff.mp hw
    split_ifs at hphase hcommitted ⊢
    exact signalled k _ hx hphase hcommitted

theorem committed_commitIndex {index : I} (hw : (s.commitIndex index).writes k = some w) (hindex : w.index = index) :
    w.committed = true := by
  obtain ⟨x, -, rfl⟩ := map_eq_some_iff.mp hw
  grind

theorem Sound.spawn (h : s.Sound) {index : I} (hnone : s.supervisors index = none) (writer : WriterId) :
    (s.spawn index writer).Sound ∧ (s.spawn index writer).Attended index := by
  obtain ⟨entry, registered, awaiting, once, spawned, written, signalled⟩ := h
  have hfresh := spawned s.spawned (Nat.le_refl _)
  refine ⟨⟨?_, ?_, ?_, once, ?_, written, fun k w hw hphase hcommitted => ?_⟩,
    s.spawned, _, update_self .., update_self .., nofun⟩ <;> simp only [SupervisedShard.spawn]
  · intro i u hu
    by_cases hi : i = index
    · exact ⟨⟨index, writer, 0, .waiting⟩, by grind [update_apply], hi.symm, nofun⟩
    · grind [update_apply]
  · grind [update_apply]
  · grind [update_apply]
  · grind [update_apply]
  · obtain ⟨u, found, hu, hfound, hpending⟩ := signalled k w hw hphase hcommitted
    exact ⟨u, found, by grind [update_apply], by grind [update_apply], hpending⟩

/-- Whatever a signal finds in the map, it leaves the write with a supervisor. -/
theorem Sound.signal (h : s.Sound) (hw : s.writes k = some w) (hstep : s.signal k w = some s') : s'.Sound := by
  have hk := h.lt_written hw
  have hnudge {t : TaskId} (hentry : s.supervisors w.index = some t) :
      ((s.nudge t).setWrite k { w with phase := .signalled }).Sound :=
    (h.nudge hentry).1.setWrite hk fun _ _ => (h.nudge hentry).2
  unfold SupervisedShard.signal at hstep
  split at hstep
  · cases hstep
    exact h.setWrite hk nofun
  · split at hstep <;> cases hstep
    · exact hnudge ‹_›
    · exact h.setWrite hk nofun
  · split at hstep <;> cases hstep
    · exact hnudge ‹_›
    · obtain ⟨hsound, hattended⟩ := h.spawn ‹_› _
      exact hsound.setWrite hk fun _ _ => hattended
  · cases hstep

/-- A supervisor whose commit succeeded with nothing on its channel leaves: no write of its index waits for it. -/
theorem Sound.leave (h : s.Sound) (htask : s.tasks t = some task) (hphase : task.phase = .replied true)
    (hpending : task.pending = 0) :
    ({ s.advance t task .ended with
        supervisors := update s.supervisors task.index none } : SupervisedShard I).Sound := by
  obtain ⟨entry, registered, awaiting, once, spawned, written, signalled⟩ := h
  have hentry := registered t task htask (by grind)
  refine ⟨?_, ?_, ?_, once, ?_, written, fun k w hw hsignalled hcommitted => ?_⟩ <;>
    simp only [SupervisedShard.advance, SupervisedShard.setTask]
  · grind [update_apply]
  · grind [update_apply]
  · grind [update_apply]
  · grind [update_apply]
  · obtain ⟨u, found, hu, hfound, hwaits⟩ := signalled k w hw hsignalled hcommitted
    exact ⟨u, found, by grind [update_apply], by grind [update_apply], hwaits⟩

/-- The writer answers the first commit on its channel. -/
theorem Sound.process (h : s.Sound) {rest : List TaskId} (hcommits : s.commits = t :: rest)
    (htask : s.tasks t = some task) (succeeds : Bool) :
    (let answered := { s.advance t task (.replied succeeds) with commits := rest }
      if succeeds then answered.commitIndex task.index else answered : SupervisedShard I).Sound := by
  have hawaiting : task.phase = .awaiting := by grind [h.awaiting t (hcommits ▸ mem_cons_self)]
  have hlive : task.phase ≠ .ended := by grind
  have honce := h.once
  rw [hcommits, nodup_cons] at honce
  have hrest (u : TaskId) (hu : u ∈ rest) : u ≠ t ∧ u ∈ s.commits := by grind
  cases succeeds with
  | false => exact h.advance htask hlive rfl nofun honce.2 (fun u hu => .inr (hrest u hu)) nofun
  | true =>
    -- The commit comes first: it leaves no write of the index that waits for the supervisor.
    exact (h.commitIndex task.index).advance htask hlive rfl nofun honce.2 (fun u hu => .inr (hrest u hu))
      fun _ => .inr fun k w hw hindex _ => committed_commitIndex hw hindex

theorem Sound.step (h : s.Sound) {e : SupervisorStep I} (hfinds : FindsWriter s e) (hstep : s.step e = some s') :
    s'.Sound := by
  cases e with
  | write index =>
    obtain ⟨-, rfl⟩ : s.serving = true ∧ _ = s' := by simpa [SupervisedShard.step] using hstep
    obtain ⟨entry, registered, awaiting, once, spawned, written, signalled⟩ := h
    refine ⟨entry, registered, awaiting, once, spawned, ?_, fun k w hw hphase hcommitted => ?_⟩
    · grind [update_apply]
    · exact signalled k w (by grind [update_apply]) hphase hcommitted
  | signal k =>
    obtain ⟨w, hw, hsignal⟩ := bind_eq_some_iff.mp hstep
    exact h.signal hw hsignal
  | receive t =>
    obtain ⟨task, htask, hstep⟩ := bind_eq_some_iff.mp hstep
    split at hstep
    · rename_i hcond
      cases hstep
      refine h.setTask htask ?_ rfl ?_ (fun hmem => absurd hmem (h.not_awaited htask ?_)) ?_
      all_goals simp only [hcond.1, ne_eq, reduceCtorEq, not_false_eq_true, false_implies]
    · cases hstep
  | timeout t =>
    obtain ⟨task, htask, hstep⟩ := bind_eq_some_iff.mp hstep
    split at hstep
    · rename_i hphase
      cases hstep
      exact h.goOn htask (by grind) ⟨nofun, nofun⟩
    · cases hstep
  | send t =>
    obtain ⟨task, htask, hstep⟩ := bind_eq_some_iff.mp hstep
    split at hstep
    · rename_i hphase
      rw [if_pos (hfinds task htask hphase)] at hstep
      cases hstep
      exact h.send htask hphase
    · cases hstep
  | process succeeds =>
    simp only [SupervisedShard.step] at hstep
    split at hstep
    · rename_i t rest _ hcommits
      obtain ⟨task, htask, rfl⟩ := map_eq_some_iff.mp hstep
      exact h.process hcommits htask succeeds
    · cases hstep
  | commit index =>
    simp only [SupervisedShard.step] at hstep
    split at hstep
    · cases hstep
      exact h.commitIndex index
    · cases hstep
  | reply t =>
    obtain ⟨task, htask, hstep⟩ := bind_eq_some_iff.mp hstep
    have hwait (hphase : task.phase ≠ .ended ∧ task.phase ≠ .awaiting) : (s.advance t task .waiting).Sound :=
      h.goOn htask hphase ⟨nofun, nofun⟩
    split at hstep
    · rename_i hphase
      split at hstep
      · rename_i hpending
        cases hstep
        exact h.leave htask hphase hpending
      · cases hstep
        exact hwait (by grind)
    · rename_i hphase
      cases hstep
      exact hwait (by grind)
    · cases hstep
  | dropped t =>
    obtain ⟨task, htask, hstep⟩ := bind_eq_some_iff.mp hstep
    split at hstep
    · rename_i hphase
      exact absurd hphase (hfinds task htask)
    · cases hstep
  | crash =>
    simp only [SupervisedShard.step] at hstep
    split at hstep
    · cases hstep
      exact h.crash
    · cases hstep
  | respawn =>
    simp only [SupervisedShard.step] at hstep
    split at hstep
    · cases hstep
    · cases hstep
      exact ⟨h.entry, h.registered, h.awaiting, h.once, h.spawned, h.written, h.signalled⟩

end SupervisedShard

variable [DecidableEq I]

def LeavesNoneEnded (s : SupervisedShard I) (e : SupervisorStep I) : Prop := ∀ s', s.step e = some s' → NoneEnded s'

theorem SupervisedShard.Sound.leaves_iff (h : s.Sound) (e : SupervisorStep I) :
    LeavesNoneEnded s e ↔ FindsWriter s e := by
  constructor
  · intro hleaves
    cases e with
    | send t =>
      intro task htask hphase
      by_contra hgone
      refine h.ended_entry htask (by grind) (hleaves _ ?_)
      simp only [SupervisedShard.step, Option.mem_def.mp htask, bind_some, if_pos hphase, if_neg hgone]
    | dropped t =>
      intro task htask hphase
      refine h.ended_entry htask (by grind) (hleaves _ ?_)
      simp only [SupervisedShard.step, Option.mem_def.mp htask, bind_some, if_pos hphase]
    | write | signal | receive | timeout | process | commit | reply | crash | respawn => trivial
  · intro hfinds s' hstep
    exact (h.step hfinds hstep).noneEnded

def nextWrite (s : SupervisedShard I) (index : I) : List (SupervisorStep I) :=
  [.write index, .signal s.written, .signal s.written, .signal s.written]

theorem nextWrite_supervised {index : I} (hserving : s.serving = true) (hnone : s.supervisors index = none) :
    ∃ s', run SupervisedShard.step s (nextWrite s index) = some s' ∧ s'.Supervised index := by
  simp only [nextWrite, run, SupervisedShard.step, hserving, if_true, bind_some, SupervisedShard.signal, setWrite,
    update_self, hnone]
  exact ⟨_, rfl, s.spawned, _, update_self .., update_self .., nofun⟩

/-- In every run, no step leaves an entry of a supervisor that has ended exactly if every commit of a supervisor
    finds its writer. In such a run, a write that was signalled and not committed has a live supervisor in the map,
    and an index that has none gets one from the next write to it. -/
theorem signalled_writes_supervised {steps : List (SupervisorStep I)}
    (hrun : run SupervisedShard.step .initial steps = some s) :
    (Transition.Along SupervisedShard.step LeavesNoneEnded (.initial : SupervisedShard I) steps ↔
      Transition.Along SupervisedShard.step FindsWriter (.initial : SupervisedShard I) steps) ∧
      (Transition.Along SupervisedShard.step FindsWriter (.initial : SupervisedShard I) steps →
        (∀ k w, s.writes k = some w → w.phase = .signalled → w.committed = false → s.Supervised w.index) ∧
          (s.serving = true → ∀ index, ¬ s.Supervised index →
            ∃ s', run SupervisedShard.step s (nextWrite s index) = some s' ∧ s'.Supervised index)) := by
  constructor
  · exact Transition.Along.congr (fun s e s' h hleaves hstep => Sound.step h ((Sound.leaves_iff h e).mp hleaves) hstep)
      (fun s e h => Sound.leaves_iff h e) sound_initial steps
  · intro hfinds
    have hsound : s.Sound := run_invariant (fun s e s' h hok hstep => Sound.step h hok hstep) sound_initial hfinds hrun
    refine ⟨fun k w hw hphase hcommitted => hsound.supervised (hsound.signalled k w hw hphase hcommitted),
      fun hserving index hnot => ?_⟩
    refine nextWrite_supervised hserving ?_
    rw [eq_none_iff_forall_ne_some]
    intro t hentry
    obtain ⟨task, htask, -, hlive⟩ := hsound.entry index t hentry
    exact hnot ⟨t, task, hentry, htask, hlive⟩

def writeDuringCommit : List (SupervisorStep Nat) :=
  [.write 5, .signal 0, .signal 0, .signal 0, .timeout 0, .send 0, .process true, .write 5,
    .signal 1, .signal 1, .reply 0]

theorem signalled_writes_supervised_writeDuringCommit :
    ∃ s : SupervisedShard Nat, run SupervisedShard.step .initial writeDuringCommit = some s ∧
      s.writes 1 = some ⟨5, .signalled, false⟩ ∧ s.Supervised 5 := by
  have hfinds : Transition.Along SupervisedShard.step FindsWriter
      (.initial : SupervisedShard Nat) writeDuringCommit := by
    refine ⟨trivial, trivial, trivial, trivial, trivial, fun task htask _ => ?_, trivial, trivial, trivial,
      trivial, trivial, trivial⟩
    cases htask
    exact ⟨rfl, rfl⟩
  have hend : ∃ s : SupervisedShard Nat, run SupervisedShard.step .initial writeDuringCommit = some s ∧
      s.writes 1 = some ⟨5, .signalled, false⟩ := ⟨_, rfl, rfl⟩
  obtain ⟨s, hrun, hwrite⟩ := hend
  obtain ⟨-, hsupervised⟩ := signalled_writes_supervised hrun
  exact ⟨s, hrun, hwrite, (hsupervised hfinds).1 1 _ hwrite rfl rfl⟩

/-- The writer crashes and is replaced while a supervisor waits. Its commit finds the channel closed, its entry
    stays, and two further writes to the index, signalled, not committed, with the writer serving, have no
    supervisor. -/
theorem ended_entry_swallows_signals :
    ∃ s : SupervisedShard Nat, run SupervisedShard.step .initial
        [.write 5, .signal 0, .signal 0, .signal 0, .crash, .respawn, .timeout 0, .send 0, .write 5, .signal 1,
        .signal 1, .write 5, .signal 2, .signal 2] = some s ∧
      s.serving = true ∧ s.writes 1 = some ⟨5, .signalled, false⟩ ∧ s.writes 2 = some ⟨5, .signalled, false⟩ ∧
      s.supervisors 5 = some 0 ∧ s.tasks 0 = some ⟨5, 0, 0, .ended⟩ ∧ ¬ s.Supervised 5 := by
  refine ⟨_, rfl, rfl, rfl, rfl, rfl, rfl, ?_⟩
  rintro ⟨t, task, hentry, htask, hlive⟩
  cases hentry
  cases htask
  exact hlive rfl

end CameoDb
