import Mathlib.Data.List.Basic

/-! # Runs of a partial step function

A system is a state and a function that says what each event makes of it, or that the event cannot happen there. -/

/-- The list a party of a system is in, around it. -/
theorem List.split_at {α : Type} {l : List α} {k : Nat} {a : α} (h : l[k]? = some a) :
    ∃ before after, l = before ++ a :: after ∧ (∀ b, l.set k b = before ++ b :: after) ∧
    l.eraseIdx k = before ++ after := by
  obtain ⟨hk, rfl⟩ := getElem?_eq_some_iff.mp h
  refine ⟨l.take k, l.drop (k + 1), ?_, fun b => ?_, eraseIdx_eq_take_drop_succ l k⟩
  · rw [getElem_cons_drop hk, take_append_drop]
  · rw [set_eq_take_append_cons_drop, if_pos hk]

namespace CameoDb.Transition
open List

variable {σ ε : Type} {step : σ → ε → Option σ}

/-- The state a list of events leads to, if each of them can happen where it comes. -/
def run (step : σ → ε → Option σ) (s : σ) : List ε → Option σ
  | [] => some s
  | e :: rest => (step s e).bind fun s' => run step s' rest

theorem run_cons {s s'' : σ} {e : ε} {rest : List ε} (h : run step s (e :: rest) = some s'') :
    ∃ s', step s e = some s' ∧ run step s' rest = some s'' :=
  Option.bind_eq_some_iff.mp h

/-- Every event of a run meets a condition where it happens. -/
def Along (step : σ → ε → Option σ) (ok : σ → ε → Prop) (s : σ) : List ε → Prop
  | [] => True
  | e :: rest => ok s e ∧ (step s e).elim True fun s' => Along step ok s' rest

theorem Along.of_forall {ok : σ → ε → Prop} {events : List ε} (h : ∀ e ∈ events, ∀ s, ok s e) (s : σ) :
    Along step ok s events := by
  induction events generalizing s with
  | nil => trivial
  | cons e rest ih =>
    refine ⟨h e mem_cons_self s, ?_⟩
    cases step s e with
    | none => trivial
    | some s' => exact ih (fun e he => h e (mem_cons_of_mem _ he)) s'

theorem Along.and {ok ok' : σ → ε → Prop} {s : σ} {events : List ε} (h : Along step ok s events)
    (h' : Along step ok' s events) : Along step (fun s e => ok s e ∧ ok' s e) s events := by
  induction events generalizing s with
  | nil => trivial
  | cons e rest ih =>
    obtain ⟨he, hrest⟩ := h
    obtain ⟨he', hrest'⟩ := h'
    refine ⟨⟨he, he'⟩, ?_⟩
    cases hstep : step s e with
    | none => trivial
    | some s' =>
      rw [hstep] at hrest hrest'
      exact ih hrest hrest'

theorem run_invariant {inv : σ → Prop} {ok : σ → ε → Prop}
    (keep : ∀ s e s', inv s → ok s e → step s e = some s' → inv s') {s s' : σ} {events : List ε} (hs : inv s)
    (hok : Along step ok s events) (h : run step s events = some s') : inv s' := by
  induction events generalizing s with
  | nil =>
    cases h
    exact hs
  | cons e rest ih =>
    obtain ⟨s₁, hone, hrest⟩ := run_cons h
    obtain ⟨hfirst, halong⟩ := hok
    rw [hone] at halong
    exact ih (keep s e s₁ hs hfirst hone) halong hrest

/-- What every step keeps holds after every run. -/
theorem run_keeps {inv : σ → Prop} (keep : ∀ s e s', inv s → step s e = some s' → inv s') {s s' : σ}
    {events : List ε} (hs : inv s) (h : run step s events = some s') : inv s' := by
  have hall : Along step (fun _ _ => True) s events := Along.of_forall (fun _ _ _ => trivial) s
  exact run_invariant (fun s e s' hinv _ hstep => keep s e s' hinv hstep) hs hall h

/-- Two conditions that are one wherever an invariant holds that they keep are one along every run from there. -/
theorem Along.congr {inv : σ → Prop} {ok ok' : σ → ε → Prop}
    (keep : ∀ s e s', inv s → ok s e → step s e = some s' → inv s')
    (h : ∀ s e, inv s → (ok s e ↔ ok' s e)) {s : σ} (hs : inv s) (events : List ε) :
    Along step ok s events ↔ Along step ok' s events := by
  induction events generalizing s with
  | nil => rfl
  | cons e rest ih =>
    unfold Along
    rw [← h s e hs]
    refine and_congr_right fun hok => ?_
    cases hstep : step s e with
    | none => rfl
    | some s' => rw [Option.elim_some, Option.elim_some, ih (keep s e s' hs hok hstep)]

instance Along.decidable {ok : σ → ε → Prop} [∀ s e, Decidable (ok s e)] :
    ∀ (s : σ) (events : List ε), Decidable (Along step ok s events)
  | _, [] => .isTrue trivial
  | s, e :: rest =>
    let after : ∀ o : Option σ, Decidable (o.elim True fun s' => Along step ok s' rest)
      | none => .isTrue trivial
      | some s' => Along.decidable s' rest
    @instDecidableAnd _ _ _ (after (step s e))

/-- Whether a run ends in a state of some kind can be evaluated. -/
instance decidableReaches {P : σ → Prop} [DecidablePred P] : ∀ end_ : Option σ, Decidable (∃ s', end_ = some s' ∧ P s')
  | none => .isFalse fun ⟨_, h, _⟩ => nomatch h
  | some s => decidable_of_iff (P s) ⟨fun h => ⟨s, rfl, h⟩, fun ⟨_, h, hP⟩ => Option.some.inj h ▸ hP⟩

end CameoDb.Transition
