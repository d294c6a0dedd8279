import Mathlib.Data.List.Basic

/-! # Asking several parties and waiting for their answers

A party handles what it was sent at any time; its answer is heard while the asker waits for it. Messages can be lost. -/

namespace CameoDb
open List

structure Asker (N M A : Type) where
  /-- The number of the question that is asked now. -/
  tag : Nat
  waiting : List N
  /-- What was heard, `none` from a party that was given up on. -/
  answers : List (N × Option A)
  /-- The messages sent and not handled, oldest first. -/
  inFlight : N → List (Nat × M)

namespace Asker
variable {N M A : Type} [DecidableEq N] {a : Asker N M A} {x y : N}

def initial : Asker N M A := ⟨0, [], [], fun _ => []⟩

/-- Asks the parties something, whatever they still have to handle. -/
def ask (a : Asker N M A) (targets : List N) (message : M) : Asker N M A where
  tag := a.tag + 1
  waiting := targets
  answers := []
  inFlight x := if x ∈ targets then a.inFlight x ++ [(a.tag + 1, message)] else a.inFlight x

/-- A party's message at a position, counted from the oldest, is taken off. -/
def remove (a : Asker N M A) (x : N) (position : Nat) : Asker N M A :=
  { a with inFlight := Function.update a.inFlight x ((a.inFlight x).eraseIdx position) }

def hear (a : Asker N M A) (x : N) (tag : Nat) (answer : A) : Asker N M A :=
  if tag = a.tag ∧ x ∈ a.waiting then
    { a with waiting := a.waiting.erase x, answers := a.answers ++ [(x, some answer)] }
  else a

def giveUp (a : Asker N M A) (x : N) : Asker N M A :=
  { a with waiting := a.waiting.erase x, answers := a.answers ++ [(x, none)] }

def collect (a : Asker N M A) (parties : List N) : Option (List (N × A)) :=
  parties.mapM fun x => ((a.answers.find? fun heard => heard.1 = x).bind Prod.snd).map fun answer => (x, answer)

theorem remove_inFlight {position : Nat} :
    (a.remove x position).inFlight y = if y = x then (a.inFlight x).eraseIdx position else a.inFlight y := by
  simp only [remove, Function.update_apply]

theorem mem_of_mem_remove {position : Nat} {m : Nat × M} (h : m ∈ (a.remove x position).inFlight y) :
    m ∈ a.inFlight y := by
  rw [remove_inFlight] at h
  split at h
  · rename_i heq
    rw [heq]
    exact mem_of_mem_eraseIdx h
  · exact h

@[simp] theorem hear_inFlight (tag : Nat) (answer : A) : (a.hear x tag answer).inFlight = a.inFlight := by
  unfold hear
  split <;> rfl

/-- What is heard was heard before, or is this answer to the question that is asked now. -/
theorem mem_hear {tag : Nat} {answer : A} {heard : N × Option A} (h : heard ∈ (a.hear x tag answer).answers) :
    heard ∈ a.answers ∨ heard = (x, some answer) ∧ tag = a.tag := by
  unfold hear at h
  split at h
  · rename_i hcond
    rcases mem_append.mp h with h | h
    · exact .inl h
    · exact .inr ⟨mem_singleton.mp h, hcond.1⟩
  · exact .inl h

/-- Every message that is under way, and every answer that was heard, meets a condition. -/
structure Within (sent : N → M → Prop) (heard : N → A → Prop) (a : Asker N M A) : Prop where
  sent : ∀ x, ∀ m ∈ a.inFlight x, sent x m.2
  heard : ∀ x answer, (x, some answer) ∈ a.answers → heard x answer

section Within
variable {sent : N → M → Prop} {heard heard' : N → A → Prop}

omit [DecidableEq N] in
theorem Within.mono (h : a.Within sent heard) (himp : ∀ x answer, heard x answer → heard' x answer) :
    a.Within sent heard' :=
  ⟨h.sent, fun x answer hx => himp x answer (h.heard x answer hx)⟩

/-- A new question, and nothing heard of it. -/
theorem Within.ask (h : a.Within sent heard) {targets : List N} {message : M}
    (hmessage : ∀ x ∈ targets, sent x message) : (a.ask targets message).Within sent heard' := by
  refine ⟨fun x m hm => ?_, fun x answer hx => nomatch hx⟩
  simp only [Asker.ask] at hm
  split at hm
  · rename_i hx
    rcases mem_append.mp hm with hm | hm
    · exact h.sent x m hm
    · rw [mem_singleton.mp hm]
      exact hmessage x hx
  · exact h.sent x m hm

theorem Within.remove (h : a.Within sent heard) (x : N) (position : Nat) : (a.remove x position).Within sent heard :=
  ⟨fun y m hm => h.sent y m (mem_of_mem_remove hm), h.heard⟩

theorem Within.hear (h : a.Within sent heard) (tag : Nat) {answer : A} (hanswer : heard x answer) :
    (a.hear x tag answer).Within sent heard := by
  refine ⟨fun y m hm => h.sent y m (by rwa [hear_inFlight] at hm), fun y got hy => ?_⟩
  rcases mem_hear hy with hy | ⟨hy, -⟩
  · exact h.heard y got hy
  · cases hy
    exact hanswer

theorem Within.giveUp (h : a.Within sent heard) (x : N) : (a.giveUp x).Within sent heard := by
  refine ⟨h.sent, fun y got hy => ?_⟩
  rcases mem_append.mp hy with hy | hy
  · exact h.heard y got hy
  · cases (Prod.mk.inj (mem_singleton.mp hy)).2

end Within

theorem collect_spec {parties : List N} {collected : List (N × A)} (h : a.collect parties = some collected) :
    collected.map Prod.fst = parties ∧ ∀ x answer, (x, answer) ∈ collected → (x, some answer) ∈ a.answers := by
  induction parties generalizing collected with
  | nil =>
    cases h
    exact ⟨rfl, fun x answer hx => nomatch hx⟩
  | cons party rest ih =>
    simp only [collect, mapM_cons, Option.bind_eq_bind, Option.bind_eq_some_iff, Option.map_eq_some_iff] at h
    obtain ⟨⟨x, answer⟩, ⟨heard, ⟨⟨p, o⟩, hfind, hheard⟩, heq⟩, others, hothers, hcons⟩ := h
    obtain ⟨rfl, rfl⟩ := Prod.mk.inj heq
    cases hcons
    obtain ⟨hfst, hmem⟩ := ih hothers
    refine ⟨by rw [map_cons, hfst], fun y got hy => ?_⟩
    rcases mem_cons.mp hy with hy | hy
    · obtain ⟨rfl, rfl⟩ := Prod.mk.inj hy
      have hp : p = y := by simpa using find?_some hfind
      subst hp
      cases hheard
      exact mem_of_find?_eq_some hfind
    · exact hmem y got hy

end Asker

end CameoDb
