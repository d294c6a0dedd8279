import CameoDb.Mcp.Session
import Mathlib.Data.List.Perm.Subperm

/-! The registry of a session and its tasks: while no request takes the id of a task that has not dropped its guard,
    the registry has exactly the tasks that run. So its bound is theirs, an id finds its task, and dropping the
    registry stops them all. -/

namespace CameoDb.Mcp
open List Option McpSession

variable {I : Type} [DecidableEq I] {s s' : McpSession I} {inFlight : AList fun _ : I => Token} {id : I} {token : Token}

/-- A request's id is not that of one still running. -/
def FreshId (s : McpSession I) : SessionStep I → Prop
  | .startRequest id => ∀ t ∈ s.tasks, t.id ≠ id
  | _ => True

instance (s : McpSession I) : DecidablePred (FreshId s)
  | .startRequest id => inferInstanceAs (Decidable (∀ t ∈ s.tasks, t.id ≠ id))
  | .claimSession | .cancelRequest _ | .dropClone | .remove | .dropGuard _ => .isTrue trivial

/-- The registered tokens are those of the tasks not cancelled. -/
def Registers (inFlight : AList fun _ : I => Token) (s : McpSession I) : Prop :=
  inFlight.entries.length ≤ s.maxInFlight ∧
    ∀ id token, inFlight.lookup id = some token ↔ ⟨id, token⟩ ∈ s.tasks ∧ token ∉ s.cancelled

namespace McpSession

/-- The invariant of a session between steps. -/
structure Tracked (s : McpSession I) : Prop where
  ids : (s.tasks.map RequestTask.id).Nodup
  tokens : (s.tasks.map RequestTask.token).Nodup
  minted : ∀ t ∈ s.tasks, t.token < s.minted
  cancelledMinted : ∀ token ∈ s.cancelled, token < s.minted
  registered : ∀ inFlight, s.inFlight = some inFlight → Registers inFlight s
  dropped : s.inFlight = none → ∀ t ∈ s.tasks, t.token ∈ s.cancelled

/-- The registry goes with the last handle. -/
structure Sound (s : McpSession I) : Prop extends Tracked s where
  handles : s.listed = false → s.clones = 0 → s.inFlight = none

omit [DecidableEq I] in
theorem mem_running {t : RequestTask I} : t ∈ s.running ↔ t ∈ s.tasks ∧ t.token ∉ s.cancelled := by
  simp only [running, mem_filter, decide_eq_true_eq]

theorem sound_new (maxInFlight : Nat) : (new maxInFlight : McpSession I).Sound := by
  refine ⟨⟨.nil, .nil, fun _ h => (nomatch h), fun _ h => (nomatch h), fun inFlight h => ?_, fun h => nomatch h⟩,
    fun h => nomatch h⟩
  cases h
  refine ⟨Nat.zero_le _, fun id token => ⟨fun h => ?_, fun h => nomatch h.1⟩⟩
  rw [AList.lookup_empty] at h
  cases h

theorem Tracked.task_eq (h : s.Tracked) {t u : RequestTask I} (ht : t ∈ s.tasks) (hu : u ∈ s.tasks)
    (hid : t.id = u.id) : t = u :=
  inj_on_of_nodup_map h.ids ht hu hid

theorem Tracked.task_eq_of_token (h : s.Tracked) {t u : RequestTask I} (ht : t ∈ s.tasks) (hu : u ∈ s.tasks)
    (htoken : t.token = u.token) : t = u :=
  inj_on_of_nodup_map h.tokens ht hu htoken

/-- The tasks that run are not more than the registry may hold. -/
theorem Tracked.running_le (h : s.Tracked) : s.running.length ≤ s.maxInFlight := by
  cases hinFlight : s.inFlight with
  | none =>
    have hnil : s.running = [] := by
      rw [eq_nil_iff_forall_not_mem]
      intro t ht
      obtain ⟨ht, hnot⟩ := mem_running.mp ht
      exact hnot (h.dropped hinFlight t ht)
    rw [hnil]
    exact Nat.zero_le _
  | some inFlight =>
    obtain ⟨hle, hlookup⟩ := h.registered inFlight hinFlight
    have hnodup : (s.running.map fun t => (⟨t.id, t.token⟩ : Sigma fun _ : I => Token)).Nodup := by
      refine List.Nodup.map_on (fun t ht u hu heq => ?_) ((h.ids.of_map _).filter _)
      exact h.task_eq (mem_running.mp ht).1 (mem_running.mp hu).1 (Sigma.mk.inj heq).1
    have hsub : (s.running.map fun t => (⟨t.id, t.token⟩ : Sigma fun _ : I => Token)) ⊆ inFlight.entries := by
      intro entry hentry
      obtain ⟨t, ht, rfl⟩ := mem_map.mp hentry
      exact AList.mem_lookup_iff.mp ((hlookup t.id t.token).mpr (mem_running.mp ht))
    have hlength := (subperm_of_subset hnodup hsub).length_le
    rw [length_map] at hlength
    exact Nat.le_trans hlength hle

theorem Tracked.with_handles (h : s.Tracked) (listed : Bool) (clones : Nat) :
    ({ s with listed, clones } : McpSession I).Tracked :=
  ⟨h.ids, h.tokens, h.minted, h.cancelledMinted, h.registered, h.dropped⟩

theorem Tracked.dropIfLast (h : s.Tracked) : s.dropIfLast.Sound := by
  unfold McpSession.dropIfLast
  split
  · split
    · rename_i inFlight hinFlight
      obtain ⟨-, hlookup⟩ := h.registered inFlight hinFlight
      have hentry (id : I) (token : Token) := @AList.mem_lookup_iff _ _ _ id token inFlight
      refine ⟨⟨h.ids, h.tokens, h.minted, fun token htoken => ?_, nofun, fun _ t ht => ?_⟩, fun _ _ => rfl⟩
      · rcases mem_append.mp htoken with htoken | htoken
        · obtain ⟨entry, hmem, rfl⟩ := mem_map.mp htoken
          exact h.minted _ ((hlookup _ _).mp ((hentry _ _).mpr hmem)).1
        · exact h.cancelledMinted token htoken
      · by_cases hcancelled : t.token ∈ s.cancelled
        · exact mem_append_right _ hcancelled
        · have hmem := (hentry _ _).mp ((hlookup t.id t.token).mpr ⟨ht, hcancelled⟩)
          exact mem_append_left _ (mem_map_of_mem (f := Sigma.snd) hmem)
    · exact ⟨h, fun _ _ => by assumption⟩
  · rename_i hnot
    exact ⟨h, fun hlisted hclones => absurd ⟨hlisted, hclones⟩ hnot⟩

theorem Sound.startRequest (h : s.Sound) (hinFlight : s.inFlight = some inFlight) (hfresh : ∀ t ∈ s.tasks, t.id ≠ id) :
    (s.startRequest inFlight id).Sound := by
  unfold McpSession.startRequest
  split
  · exact h
  rename_i hroom
  obtain ⟨-, hlookup⟩ := h.registered inFlight hinFlight
  have hnotMem : id ∉ inFlight := by
    rw [← AList.lookup_eq_none, eq_none_iff_forall_ne_some]
    intro token htoken
    exact hfresh _ ((hlookup id token).mp htoken).1 rfl
  have hminted := h.minted
  have hcancelled := h.cancelledMinted
  refine ⟨⟨?_, ?_, ?_, ?_, fun registry hregistry => ?_, nofun⟩, fun hlisted hclones => ?_⟩
  · rw [map_append, nodup_append]
    exact ⟨h.ids, nodup_singleton _, by grind⟩
  · rw [map_append, nodup_append]
    exact ⟨h.tokens, nodup_singleton _, by grind⟩
  · grind
  · grind
  · cases hregistry
    refine ⟨?_, fun id' token => ?_⟩
    · rw [AList.entries_insert_of_notMem hnotMem, length_cons]
      exact Nat.lt_of_not_le hroom
    · by_cases hid : id' = id
      · subst hid
        rw [AList.lookup_insert]
        grind
      · rw [AList.lookup_insert_ne hid, hlookup]
        grind
  · exact nomatch hinFlight.symm.trans (h.handles hlisted hclones)

theorem Sound.cancelRequest (h : s.Sound) (hinFlight : s.inFlight = some inFlight) (id : I) :
    (s.cancelRequest inFlight id).Sound := by
  unfold McpSession.cancelRequest
  split
  · rename_i token htoken
    obtain ⟨hle, hlookup⟩ := h.registered inFlight hinFlight
    obtain ⟨htask, -⟩ := (hlookup id token).mp htoken
    refine ⟨⟨h.ids, h.tokens, h.minted, ?_, fun registry hregistry => ?_, nofun⟩, fun hlisted hclones => ?_⟩
    · have hcancelled := h.cancelledMinted
      grind [h.minted _ htask]
    · cases hregistry
      refine ⟨Nat.le_trans (kerase_sublist id inFlight.entries).length_le hle, fun id' token' => ?_⟩
      by_cases hid : id' = id
      · subst hid
        rw [AList.lookup_erase]
        grind [h.task_eq]
      · rw [AList.lookup_erase_ne hid, hlookup]
        grind [h.task_eq_of_token]
    · exact nomatch hinFlight.symm.trans (h.handles hlisted hclones)
  · exact h

theorem Sound.dropGuard (h : s.Sound) {task : RequestTask I} (htask : task ∈ s.tasks) : (s.dropGuard task).Sound := by
  have hnodup : s.tasks.Nodup := h.ids.of_map _
  have hsub : (s.tasks.erase task).Sublist s.tasks := erase_sublist
  refine ⟨⟨h.ids.sublist (hsub.map _), h.tokens.sublist (hsub.map _), fun t ht => h.minted t (mem_of_mem_erase ht),
    h.cancelledMinted, fun registry hregistry => ?_, fun hnone t ht => ?_⟩, fun hlisted hclones => ?_⟩
  · obtain ⟨inFlight, hinFlight, rfl⟩ := map_eq_some_iff.mp hregistry
    obtain ⟨hle, hlookup⟩ := h.registered inFlight hinFlight
    refine ⟨Nat.le_trans (kerase_sublist task.id inFlight.entries).length_le hle, fun id token => ?_⟩
    simp only [McpSession.dropGuard, hnodup.mem_erase_iff]
    by_cases hid : id = task.id
    · subst hid
      rw [AList.lookup_erase]
      grind [h.task_eq]
    · rw [AList.lookup_erase_ne hid, hlookup]
      grind
  · exact h.dropped (map_eq_none_iff.mp hnone) t (mem_of_mem_erase ht)
  · exact map_eq_none_iff.mpr (h.handles hlisted hclones)

theorem Sound.step (h : s.Sound) {e : SessionStep I} (hfresh : FreshId s e) (hstep : s.step e = some s') :
    s'.Sound := by
  cases e with
  | claimSession =>
    simp only [McpSession.step] at hstep
    split at hstep
    · rename_i hlisted
      cases hstep
      exact ⟨h.with_handles s.listed _, fun hunlisted => nomatch hlisted.symm.trans hunlisted⟩
    · cases hstep
  | startRequest id =>
    simp only [McpSession.step] at hstep
    split at hstep
    · cases hstep
    · obtain ⟨inFlight, hinFlight, rfl⟩ := map_eq_some_iff.mp hstep
      exact h.startRequest hinFlight hfresh
  | cancelRequest id =>
    simp only [McpSession.step] at hstep
    split at hstep
    · cases hstep
    · obtain ⟨inFlight, hinFlight, rfl⟩ := map_eq_some_iff.mp hstep
      exact h.cancelRequest hinFlight id
  | dropClone =>
    simp only [McpSession.step] at hstep
    split at hstep
    · cases hstep
    · cases hstep
      exact (h.with_handles s.listed _).dropIfLast
  | remove =>
    simp only [McpSession.step] at hstep
    split at hstep
    · cases hstep
      exact (h.with_handles false s.clones).dropIfLast
    · cases hstep
  | dropGuard token =>
    obtain ⟨task, hfound, rfl⟩ := map_eq_some_iff.mp hstep
    exact h.dropGuard (mem_of_find?_eq_some hfound)

theorem Sound.cancels (h : s.Sound) (hstep : s.step (.cancelRequest id) = some s') {t : RequestTask I}
    (ht : t ∈ s.running) (hid : t.id = id) : t.token ∈ s'.cancelled := by
  simp only [McpSession.step] at hstep
  split at hstep
  · cases hstep
  · obtain ⟨inFlight, hinFlight, rfl⟩ := map_eq_some_iff.mp hstep
    have hfound := ((h.registered inFlight hinFlight).2 t.id t.token).mpr (mem_running.mp ht)
    rw [hid] at hfound
    simp only [McpSession.cancelRequest, hfound]
    exact mem_cons_self

theorem Sound.running_nil (h : s.Sound) (hlisted : s.listed = false) (hclones : s.clones = 0) : s.running = [] := by
  rw [eq_nil_iff_forall_not_mem]
  intro t ht
  obtain ⟨ht, hnot⟩ := mem_running.mp ht
  exact hnot (h.dropped (h.handles hlisted hclones) t ht)

theorem maxInFlight_step {e : SessionStep I} (hstep : s.step e = some s') : s'.maxInFlight = s.maxInFlight := by
  cases e <;> simp only [McpSession.step] at hstep <;>
    grind [McpSession.startRequest, McpSession.cancelRequest, McpSession.dropIfLast,
      McpSession.dropGuard, map_eq_some_iff]

end McpSession

/-- In every run in which no request takes the id of a task that has not dropped its guard, no more tasks run than
    `max_in_flight`, cancelling an id cancels the task that runs under it, and none runs once the session is removed
    and its last clone is dropped. -/
theorem in_flight_bounded {maxInFlight : Nat} {steps : List (SessionStep I)}
    (hrun : Transition.run McpSession.step (.new maxInFlight) steps = some s)
    (hfresh : Transition.Along McpSession.step FreshId (.new maxInFlight) steps) : s.running.length ≤ maxInFlight ∧
      (∀ id s', s.step (.cancelRequest id) = some s' → ∀ t ∈ s.running, t.id = id → t.token ∈ s'.cancelled) ∧
      (s.listed = false → s.clones = 0 → s.running = []) := by
  have hkeep (s : McpSession I) (e : SessionStep I) (s' : McpSession I)
    (h : s.Sound ∧ s.maxInFlight = maxInFlight) (hok : FreshId s e)
      (hstep : s.step e = some s') : s'.Sound ∧ s'.maxInFlight = maxInFlight :=
    ⟨h.1.step hok hstep, (maxInFlight_step hstep).trans h.2⟩
  have hend : s.Sound ∧ s.maxInFlight = maxInFlight :=
    Transition.run_invariant hkeep ⟨sound_new maxInFlight, rfl⟩ hfresh hrun
  obtain ⟨hsound, hmax⟩ := hend
  refine ⟨hmax ▸ hsound.running_le, fun id s' hstep t ht hid => hsound.cancels hstep ht hid, hsound.running_nil⟩

def threeRequests : List (SessionStep Nat) :=
  [.claimSession, .startRequest 7, .startRequest 8, .startRequest 9, .cancelRequest 7, .dropGuard 0, .startRequest 7,
    .dropGuard 1, .remove, .dropClone]

theorem in_flight_bounded_threeRequests :
    ∃ s, Transition.run McpSession.step (.new 2) threeRequests = some s ∧ s.tasks ≠ [] ∧
    s.running.length ≤ 2 ∧ s.running = [] := by
  have hend : ∃ s, Transition.run McpSession.step (.new 2) threeRequests = some s ∧ s.tasks ≠ [] ∧ s.listed = false ∧
    s.clones = 0 := by decide
  obtain ⟨s, hrun, htasks, hlisted, hclones⟩ := hend
  obtain ⟨hle, -, hnil⟩ := in_flight_bounded hrun (by decide)
  exact ⟨s, hrun, htasks, hle, hnil hlisted hclones⟩

/-- Three requests under one id are all accepted by a session that may have two. Cancelling the id stops the last
    one, and the other two run on after the session is gone. -/
theorem repeated_id_escapes :
    ∃ s cancelled removed : McpSession Nat,
      Transition.run McpSession.step (.new 2)
      [.claimSession, .startRequest 7, .startRequest 7, .startRequest 7] = some s ∧
        s.running.length = 3 ∧ s.step (.cancelRequest 7) = some cancelled ∧
        (⟨7, 0⟩ : RequestTask Nat) ∈ cancelled.running ∧
        Transition.run McpSession.step cancelled [.dropClone, .remove] = some removed ∧ removed.inFlight = none ∧
        (⟨7, 0⟩ : RequestTask Nat) ∈ removed.running := by
  exact ⟨_, _, _, rfl, by decide, rfl, by decide, rfl, rfl, by decide⟩

end CameoDb.Mcp
