import Mathlib.Data.List.Infix

/-! # A transactional store under crashes

A store is the list of the transactions it has committed. A durable commit makes every transaction before it
durable too; a crash keeps the durable ones and some prefix of the rest. -/

namespace CameoDb

/-- Committed transactions: those a crash keeps, and those it may lose, oldest first. -/
structure Db (τ : Type) where
  durable : List τ
  pending : List τ

namespace Db
variable {τ : Type}

def all (db : Db τ) : List τ := db.durable ++ db.pending

def commit (db : Db τ) (immediate : Bool) (txn : τ) : Db τ :=
  if immediate then ⟨db.all ++ [txn], []⟩ else ⟨db.durable, db.pending ++ [txn]⟩

def crash (db : Db τ) (kept : Nat) : Db τ := ⟨db.durable ++ db.pending.take kept, []⟩

@[simp] theorem all_commit (db : Db τ) (immediate : Bool) (txn : τ) :
    (db.commit immediate txn).all = db.all ++ [txn] := by
  cases immediate <;> simp [commit, all]

@[simp] theorem durable_commit_true (db : Db τ) (txn : τ) : (db.commit true txn).durable = db.all ++ [txn] := rfl

@[simp] theorem pending_commit_true (db : Db τ) (txn : τ) : (db.commit true txn).pending = [] := rfl

@[simp] theorem durable_commit_false (db : Db τ) (txn : τ) : (db.commit false txn).durable = db.durable := rfl

@[simp] theorem pending_commit_false (db : Db τ) (txn : τ) : (db.commit false txn).pending = db.pending ++ [txn] := rfl

@[simp] theorem all_crash (db : Db τ) (kept : Nat) : (db.crash kept).all = db.durable ++ db.pending.take kept := by
  simp [crash, all]

@[simp] theorem pending_crash (db : Db τ) (kept : Nat) : (db.crash kept).pending = [] := rfl

@[simp] theorem durable_crash (db : Db τ) (kept : Nat) :
    (db.crash kept).durable = db.durable ++ db.pending.take kept := rfl

theorem durable_prefix_all (db : Db τ) : db.durable <+: db.all := List.prefix_append _ _

theorem crash_prefix (db : Db τ) (kept : Nat) : (db.crash kept).all <+: db.all := by
  rw [all_crash]
  exact (List.prefix_append_right_inj _).mpr (List.take_prefix _ _)

theorem durable_prefix_commit (db : Db τ) (immediate : Bool) (txn : τ) :
    db.durable <+: (db.commit immediate txn).durable := by
  cases immediate
  · exact List.prefix_rfl
  · exact db.durable_prefix_all.trans (List.prefix_append _ _)

end Db

end CameoDb
