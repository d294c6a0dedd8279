import Mathlib.Data.List.Basic

/-! # Programs that can be stopped at any step

Before each step the environment lets it take effect, fails it or stops the process. `wp m Q s` says what holds
after `m` from `s` in any case, and `Succeeds m s` that `m` returns when nothing goes wrong. -/

namespace CameoDb.Crash
open List

/-- What the environment does with the next step of a program. -/
inductive Fate where
  | ok
  | fail
  | crash
  deriving DecidableEq, Repr

/-- How a run of a program ends. -/
inductive Outcome (ε α : Type) where
  | ok (a : α)
  | error (e : ε)
  | crashed
  deriving DecidableEq, Repr

def Outcome.error? {ε α : Type} : Outcome ε α → Option ε
  | .error e => some e
  | _ => none

theorem Outcome.error?_eq_some {ε α : Type} {o : Outcome ε α} {e : ε} (h : o.error? = some e) : o = .error e := by
  cases o with
  | error e' => rw [Outcome.error?, Option.some.injEq] at h; rw [h]
  | ok a => cases h
  | crashed => cases h

/-- The end of a run: how it ended, the fates it did not use, the state it left. -/
structure Result (σ ε α : Type) where
  outcome : Outcome ε α
  fates : List Fate
  state : σ

/-- A program over `σ` with errors `ε`. When the list of fates is used up, every further step is `ok`. -/
def Prog (σ ε α : Type) : Type := List Fate → σ → Result σ ε α

namespace Prog
variable {σ ε α β : Type}

def ret (a : α) : Prog σ ε α := fun fates s => ⟨.ok a, fates, s⟩

def andThen (m : Prog σ ε α) (f : α → Prog σ ε β) : Prog σ ε β := fun fates s =>
  match m fates s with
  | ⟨.ok a, rest, s'⟩ => f a rest s'
  | ⟨.error e, rest, s'⟩ => ⟨.error e, rest, s'⟩
  | ⟨.crashed, rest, s'⟩ => ⟨.crashed, rest, s'⟩

instance : Monad (Prog σ ε) where
  pure := ret
  bind := andThen

theorem bind_apply (m : Prog σ ε α) (f : α → Prog σ ε β) (fates : List Fate) (s : σ) :
    (m >>= f) fates s = match m fates s with
      | ⟨.ok a, rest, s'⟩ => f a rest s'
      | ⟨.error e, rest, s'⟩ => ⟨.error e, rest, s'⟩
      | ⟨.crashed, rest, s'⟩ => ⟨.crashed, rest, s'⟩ := rfl

def throw (e : ε) : Prog σ ε α := fun fates s => ⟨.error e, fates, s⟩

/-- Reads part of the state. Reading memory is not a step: a crash there loses what a crash at the next step loses. -/
def gets (f : σ → α) : Prog σ ε α := fun fates s => ⟨.ok (f s), fates, s⟩

/-- Changes memory, which cannot fail. -/
def modify (f : σ → σ) : Prog σ ε Unit := fun fates s => ⟨.ok (), fates, f s⟩

/-- One step that the environment can fail with `e` or stop at, before its effect `f`. -/
def step (e : ε) (f : σ → σ) : Prog σ ε Unit := fun fates s =>
  match fates with
  | [] => ⟨.ok (), [], f s⟩
  | .ok :: rest => ⟨.ok (), rest, f s⟩
  | .fail :: rest => ⟨.error e, rest, s⟩
  | .crash :: rest => ⟨.crashed, rest, s⟩

/-- A step that changes nothing but can fail. -/
def touch (e : ε) : Prog σ ε Unit := step e fun s => s

/-- Hands the caller an error of `m` as a value. A crash is not an error. -/
def attempt (m : Prog σ ε α) : Prog σ ε (Except ε α) := fun fates s =>
  match m fates s with
  | ⟨.ok a, rest, s'⟩ => ⟨.ok (.ok a), rest, s'⟩
  | ⟨.error e, rest, s'⟩ => ⟨.ok (.error e), rest, s'⟩
  | ⟨.crashed, rest, s'⟩ => ⟨.crashed, rest, s'⟩

def ofExcept : Except ε α → Prog σ ε α
  | .ok a => ret a
  | .error e => throw e

/-- Runs a program for each element in turn. -/
def forEach (f : α → Prog σ ε β) : List α → Prog σ ε (List β)
  | [] => pure []
  | x :: rest => do
    let first ← f x
    let more ← forEach f rest
    pure (first :: more)

end Prog

structure Post (σ ε α : Type) where
  ok : α → σ → Prop
  error : ε → σ → Prop
  crashed : σ → Prop

/-- Says nothing of a run that fails or is stopped. -/
abbrev Post.returning {σ ε α : Type} (Q : α → σ → Prop) : Post σ ε α := ⟨Q, fun _ _ => True, fun _ => True⟩

def Post.Holds {σ ε α : Type} (Q : Post σ ε α) (r : Result σ ε α) : Prop :=
  match r.outcome with
  | .ok a => Q.ok a r.state
  | .error e => Q.error e r.state
  | .crashed => Q.crashed r.state

/-- `Q` holds after `m` whatever the fates of its steps. -/
def wp {σ ε α : Type} (m : Prog σ ε α) (Q : Post σ ε α) (s : σ) : Prop :=
  ∀ fates, Q.Holds (m fates s)

section Rules
variable {σ ε α β : Type} {Q : Post σ ε β} {s : σ}

theorem wp_pure {b : β} (h : Q.ok b s) : wp (pure b) Q s := fun _ => h

theorem wp_throw {e : ε} (h : Q.error e s) : wp (Prog.throw e) Q s := fun _ => h

theorem wp_gets {f : σ → β} (h : Q.ok (f s) s) : wp (Prog.gets f) Q s := fun _ => h

theorem wp_modify {Q : Post σ ε Unit} {f : σ → σ} (h : Q.ok () (f s)) : wp (Prog.modify f) Q s := fun _ => h

theorem wp_ofExcept {x : Except ε β} (ok : ∀ b, x = .ok b → Q.ok b s) (error : ∀ e, x = .error e → Q.error e s) :
    wp (Prog.ofExcept x) Q s := by
  cases x with
  | ok b => exact wp_pure (ok b rfl)
  | error e => exact wp_throw (error e rfl)

/-- A step is stopped or fails before its effect, or takes effect. -/
theorem wp_step {Q : Post σ ε Unit} {e : ε} {f : σ → σ} (ok : Q.ok () (f s)) (failed : Q.error e s)
    (stopped : Q.crashed s) : wp (Prog.step e f) Q s := by
  intro fates
  cases fates with
  | nil => exact ok
  | cons fate rest =>
    cases fate with
    | ok => exact ok
    | fail => exact failed
    | crash => exact stopped

theorem wp_mono {m : Prog σ ε β} {R : Post σ ε β} (h : wp m R s) (ok : ∀ b s', R.ok b s' → Q.ok b s')
    (error : ∀ e s', R.error e s' → Q.error e s') (crashed : ∀ s', R.crashed s' → Q.crashed s') : wp m Q s := by
  intro fates
  have hr := h fates
  unfold Post.Holds at hr ⊢
  cases ho : (m fates s).outcome <;> rw [ho] at hr
  · exact ok _ _ hr
  · exact error _ _ hr
  · exact crashed _ hr

theorem wp_imp {m : Prog σ ε β} {P : β → σ → Prop} (h : wp m ⟨P, Q.error, Q.crashed⟩ s)
    (ok : ∀ b s', P b s' → Q.ok b s') : wp m Q s :=
  wp_mono h ok (fun _ _ h => h) fun _ h => h

theorem wp_returning {m : Prog σ ε β} {P : β → σ → Prop} (h : wp m Q s) (ok : ∀ b s', Q.ok b s' → P b s') :
    wp m (.returning P) s :=
  wp_mono h ok (fun _ _ _ => trivial) fun _ _ => trivial

theorem wp_bind {m : Prog σ ε α} {f : α → Prog σ ε β}
    (h : wp m ⟨fun a s' => wp (f a) Q s', Q.error, Q.crashed⟩ s) : wp (m >>= f) Q s := by
  intro fates
  have hr := h fates
  show Q.Holds (Prog.andThen m f fates s)
  unfold Prog.andThen
  rcases hm : m fates s with ⟨_ | _ | _, rest, s'⟩ <;> rw [hm] at hr
  · exact hr rest
  · exact hr
  · exact hr

theorem wp_attempt {m : Prog σ ε α} {Q : Post σ ε (Except ε α)}
    (h : wp m ⟨fun a => Q.ok (.ok a), fun e => Q.ok (.error e), Q.crashed⟩ s) : wp (Prog.attempt m) Q s := by
  intro fates
  have hr := h fates
  unfold Prog.attempt
  rcases hm : m fates s with ⟨_ | _ | _, rest, s'⟩ <;> rw [hm] at hr <;> exact hr

theorem wp_gets_bind {g : σ → α} {f : α → Prog σ ε β} (h : wp (f (g s)) Q s) : wp (Prog.gets g >>= f) Q s :=
  wp_bind (wp_gets h)

theorem wp_modify_bind {g : σ → σ} {f : Unit → Prog σ ε β} (h : wp (f ()) Q (g s)) :
    wp (Prog.modify g >>= f) Q s :=
  wp_bind (wp_modify h)

theorem wp_step_bind {e : ε} {g : σ → σ} {f : Unit → Prog σ ε β} (ok : wp (f ()) Q (g s))
    (failed : Q.error e s) (stopped : Q.crashed s) : wp (Prog.step e g >>= f) Q s :=
  wp_bind (wp_step ok failed stopped)

end Rules

section Runs
variable {σ ε α β : Type} {m : Prog σ ε α} {f : α → Prog σ ε β} {fates rest : List Fate} {s s' : σ}

theorem Prog.bind_assoc {γ : Type} (m : Prog σ ε α) (f : α → Prog σ ε β) (g : β → Prog σ ε γ) :
    m >>= f >>= g = m >>= fun a => f a >>= g := by
  funext fates s
  simp only [Prog.bind_apply]
  rcases m fates s with ⟨_ | _ | _, rest, s'⟩ <;> rfl

/-- Pulls a run that returns apart at a bind. -/
theorem Prog.bind_eq_ok {b : β} (h : (m >>= f) fates s = ⟨.ok b, rest, s'⟩) :
    ∃ a between s₁, m fates s = ⟨.ok a, between, s₁⟩ ∧ f a between s₁ = ⟨.ok b, rest, s'⟩ := by
  rw [Prog.bind_apply] at h
  rcases hm : m fates s with ⟨_ | _ | _, between, s₁⟩ <;> rw [hm] at h
  · exact ⟨_, _, _, rfl, h⟩
  · cases h
  · cases h

theorem wp.of_error {Q : Post σ ε α} {e : ε} (h : wp m Q s) (hm : m fates s = ⟨.error e, rest, s'⟩) : Q.error e s' := by
  have := h fates
  rwa [hm] at this

/-- What holds after each run that returns, when nothing is said of the others. -/
theorem wp_of_ok {Q : α → σ → Prop} (h : ∀ fates a rest s', m fates s = ⟨.ok a, rest, s'⟩ → Q a s') :
    wp m (.returning Q) s := by
  intro fates
  rcases hm : m fates s with ⟨_ | _ | _, rest, s'⟩
  · exact h fates _ rest s' hm
  · trivial
  · trivial

/-- A program takes its fates from the front. -/
def Prog.Orderly (m : Prog σ ε α) : Prop := ∀ fates s, (m fates s).fates <:+ fates

namespace Prog.Orderly

theorem pure (a : α) : Orderly (Pure.pure a : Prog σ ε α) := fun _ _ => suffix_rfl

theorem throw (e : ε) : Orderly (Prog.throw e : Prog σ ε α) := fun _ _ => suffix_rfl

theorem gets (g : σ → α) : Orderly (Prog.gets g : Prog σ ε α) := fun _ _ => suffix_rfl

theorem modify (g : σ → σ) : Orderly (Prog.modify g : Prog σ ε Unit) := fun _ _ => suffix_rfl

theorem ofExcept (x : Except ε α) : Orderly (Prog.ofExcept x : Prog σ ε α) := by
  cases x <;> exact fun _ _ => suffix_rfl

theorem step (e : ε) (g : σ → σ) : Orderly (Prog.step e g) := by
  intro fates s
  rcases fates with _ | ⟨_ | _ | _, rest⟩
  · exact suffix_rfl
  all_goals exact suffix_cons _ rest

theorem attempt (h : Orderly m) : Orderly (Prog.attempt m) := by
  intro fates s
  have := h fates s
  unfold Prog.attempt
  rcases hm : m fates s with ⟨_ | _ | _, rest, s'⟩ <;> rw [hm] at this <;> exact this

theorem bind (hm : Orderly m) (hf : ∀ a, Orderly (f a)) : Orderly (m >>= f) := by
  intro fates s
  have hfirst := hm fates s
  rw [Prog.bind_apply]
  rcases hr : m fates s with ⟨a | _ | _, between, s₁⟩ <;> rw [hr] at hfirst
  · exact (hf a between s₁).trans hfirst
  · exact hfirst
  · exact hfirst

theorem ite {c : Prop} [Decidable c] {m' : Prog σ ε α} (h : Orderly m) (h' : Orderly m') :
    Orderly (if c then m else m') := by
  split
  · exact h
  · exact h'

/-- A run that is given no failure leaves none for the program after it. -/
theorem fail_notMem (h : Orderly m) {o : Outcome ε α} (hm : m fates s = ⟨o, rest, s'⟩) (hno : .fail ∉ fates) :
    .fail ∉ rest := by
  have := h fates s
  rw [hm] at this
  exact fun hc => hno (this.subset hc)

end Prog.Orderly

/-- What holds after every run holds after one that returned. -/
theorem wp.of_ok {Q : Post σ ε α} {a : α} (h : wp m Q s) (hm : m fates s = ⟨.ok a, rest, s'⟩) : Q.ok a s' := by
  have := h fates
  rwa [hm] at this

end Runs

/-- Without a failure or a crash, `m` returns `a` in `s'`. -/
def Returns {σ ε α : Type} (m : Prog σ ε α) (s : σ) (a : α) (s' : σ) : Prop := m [] s = ⟨.ok a, [], s'⟩

/-- `m` started in `s` returns when every step takes effect. -/
def Succeeds {σ ε α : Type} (m : Prog σ ε α) (s : σ) : Prop := ∃ a s', Returns m s a s'

def Result.isOk {σ ε α : Type} (r : Result σ ε α) : Bool :=
  match r.outcome with
  | .ok _ => r.fates.isEmpty
  | _ => false

section Quiet
variable {σ ε α β : Type} {s s' : σ} {m : Prog σ ε α} {f : α → Prog σ ε β}

theorem succeeds_iff : Succeeds m s ↔ (m [] s).isOk = true := by
  constructor
  · rintro ⟨a, s', h⟩
    rw [h]
    rfl
  · intro h
    rcases hm : m [] s with ⟨o, fates, s'⟩
    rw [hm] at h
    cases o with
    | ok a =>
      obtain rfl := isEmpty_iff.mp h
      exact ⟨a, s', hm⟩
    | error e => cases h
    | crashed => cases h

instance : Decidable (Succeeds m s) := decidable_of_iff _ succeeds_iff.symm

/-- What every run establishes, the run without faults establishes. -/
theorem Returns.post {Q : Post σ ε α} {a : α} (hm : Returns m s a s') (h : wp m Q s) : Q.ok a s' := by
  have := h []
  rw [hm] at this
  exact this

theorem Returns.bind {a : α} {b : β} {s'' : σ} (hm : Returns m s a s') (hf : Returns (f a) s' b s'') :
    Returns (m >>= f) s b s'' := by
  show Prog.andThen m f [] s = _
  unfold Prog.andThen
  rw [hm]
  exact hf

theorem Returns.bind_eq {a : α} (hm : Returns m s a s') : (m >>= f) [] s = f a [] s' := by
  have hm : m [] s = ⟨.ok a, [], s'⟩ := hm
  rw [Prog.bind_apply, hm]

theorem Returns.succeeds_bind {a : α} (hm : Returns m s a s') (hf : Succeeds (f a) s') : Succeeds (m >>= f) s := by
  unfold Succeeds Returns
  rw [hm.bind_eq]
  exact hf

theorem Succeeds.pure (a : α) : Succeeds (pure a : Prog σ ε α) s := ⟨a, s, rfl⟩

theorem Succeeds.modify (g : σ → σ) : Succeeds (Prog.modify g : Prog σ ε Unit) s := ⟨(), g s, rfl⟩

theorem Succeeds.step (e : ε) (g : σ → σ) : Succeeds (Prog.step e g) s := ⟨(), g s, rfl⟩

theorem Succeeds.bind (hm : Succeeds m s) (hf : ∀ a s', Returns m s a s' → Succeeds (f a) s') :
    Succeeds (m >>= f) s := by
  obtain ⟨a, s', h⟩ := hm
  obtain ⟨b, s'', h'⟩ := hf a s' h
  exact ⟨b, s'', h.bind h'⟩

theorem Succeeds.gets_bind {g : σ → α} (h : Succeeds (f (g s)) s) : Succeeds (Prog.gets g >>= f) s := h

theorem Succeeds.modify_bind {g : σ → σ} {f : Unit → Prog σ ε β} (h : Succeeds (f ()) (g s)) :
    Succeeds (Prog.modify g >>= f) s := h

theorem Succeeds.step_bind {e : ε} {g : σ → σ} {f : Unit → Prog σ ε β} (h : Succeeds (f ()) (g s)) :
    Succeeds (Prog.step e g >>= f) s := h

theorem Returns.of_attempt {x : Except ε α} (hm : Succeeds m s) (h : Returns (Prog.attempt m) s x s') :
    ∃ a, x = .ok a ∧ Returns m s a s' := by
  obtain ⟨a, s'', h'⟩ := hm
  unfold Returns Prog.attempt at h
  rw [h'] at h
  cases h
  exact ⟨a, rfl, h'⟩

theorem Returns.attempt {a : α} (h : Returns m s a s') : Returns (Prog.attempt m) s (.ok a) s' := by
  unfold Returns Prog.attempt
  rw [h]

theorem Succeeds.attempt (hm : Succeeds m s) : Succeeds (Prog.attempt m) s := by
  obtain ⟨a, s', h⟩ := hm
  exact ⟨.ok a, s', h.attempt⟩

/-- Runs without faults of `f` for each element in turn, one from where the last one ended. -/
inductive Steps (f : α → Prog σ ε β) : σ → List α → List β → σ → Prop where
  | nil (s : σ) : Steps f s [] [] s
  | cons {s s' s'' : σ} {x : α} {b : β} {xs : List α} {bs : List β} (first : Returns (f x) s b s')
      (rest : Steps f s' xs bs s'') :
      Steps f s (x :: xs) (b :: bs) s''

theorem Steps.returns {f : α → Prog σ ε β} {xs : List α} {bs : List β} (h : Steps f s xs bs s') :
    Returns (Prog.forEach f xs) s bs s' := by
  induction h with
  | nil s => rfl
  | cons first _ ih => exact first.bind (ih.bind rfl)

theorem Steps.append {f : α → Prog σ ε β} {s'' : σ} {xs ys : List α} {bs cs : List β} (h : Steps f s xs bs s')
    (h' : Steps f s' ys cs s'') : Steps f s (xs ++ ys) (bs ++ cs) s'' := by
  induction h with
  | nil s => exact h'
  | cons first _ ih => exact .cons first (ih h')

theorem Steps.of_append {f : α → Prog σ ε β} {xs ys : List α} {bs : List β} (h : Steps f s (xs ++ ys) bs s') :
    ∃ front back s₁, bs = front ++ back ∧ Steps f s xs front s₁ ∧ Steps f s₁ ys back s' := by
  induction xs generalizing s bs with
  | nil => exact ⟨[], bs, s, rfl, .nil s, h⟩
  | cons x xs ih =>
    cases h with
    | cons first rest =>
      obtain ⟨front, back, s₁, rfl, hfront, hback⟩ := ih rest
      exact ⟨_ :: front, back, s₁, rfl, .cons first hfront, hback⟩

theorem Steps.congr {f g : α → Prog σ ε β} {xs : List α} {bs : List β} (h : Steps f s xs bs s')
    (heq : ∀ x ∈ xs, f x = g x) : Steps g s xs bs s' := by
  induction h with
  | nil s => exact .nil s
  | cons first _ ih => exact .cons (heq _ mem_cons_self ▸ first) (ih fun x hx => heq x (mem_cons_of_mem _ hx))

end Quiet

end CameoDb.Crash
