import CameoDb.Storage.Store

namespace CameoDb
open List Tables Std

/-! # The log of operations in a list of transactions

`logOf` reads every operation off the transactions, and `WalMatches` says which of them the WAL still holds. -/

def logWrite (log : List (Nat × String)) : TableWrite → List (Nat × String)
  | .walInsert seq entry => log ++ [(seq, decodeWalEntry entry)]
  | .deleteWalTable => []
  | _ => log

/-- The sequence and id of every operation since the WAL table was last deleted, oldest first. -/
def logOf (txns : List Txn) : List (Nat × String) := txns.flatten.foldl logWrite []

/-- A transaction of an index that is not being dropped: it deletes no table, and changes a row only beside the WAL
    entry that names it. -/
structure TxnOk (txn : Txn) : Prop where
  keeps : ∀ w ∈ txn, w ≠ .deleteDataTable ∧ w ≠ .deleteWalTable
  logged : ∀ id, (∃ row, .dataInsert id row ∈ txn) ∨ .dataRemove id ∈ txn → ∃ seq, (seq, id) ∈ logOf [txn]

section Log
variable {xs ys : List Txn} {txn : Txn} {id : String}

theorem after_append (xs ys : List Txn) : Tables.after (xs ++ ys) = ys.foldl run (Tables.after xs) := by
  simp [Tables.after]

theorem after_concat (xs : List Txn) (txn : Txn) : Tables.after (xs ++ [txn]) = (Tables.after xs).run txn := by
  simp [after_append]

theorem logOf_concat (xs : List Txn) (txn : Txn) : logOf (xs ++ [txn]) = txn.foldl logWrite (logOf xs) := by
  simp [logOf]

theorem foldl_logWrite_append {ws : List TableWrite} (h : ∀ w ∈ ws, w ≠ .deleteWalTable) (log : List (Nat × String)) :
    ws.foldl logWrite log = log ++ ws.foldl logWrite [] := by
  induction ws generalizing log with
  | nil => simp
  | cons w rest ih =>
    have hrest : ∀ w ∈ rest, w ≠ .deleteWalTable := fun w hw => h w (mem_cons_of_mem _ hw)
    have hw : logWrite log w = log ++ logWrite [] w := by
      cases w <;> simp [logWrite]
      exact absurd rfl (h _ (mem_cons_self ..))
    rw [foldl_cons, foldl_cons, ih hrest, ih hrest (logWrite [] w), hw, append_assoc]

theorem logOf_append (h : ∀ txn ∈ ys, TxnOk txn) : logOf (xs ++ ys) = logOf xs ++ logOf ys := by
  have keeps : ∀ w ∈ ys.flatten, w ≠ .deleteWalTable := by
    intro w hw
    obtain ⟨txn, htxn, hmem⟩ := mem_flatten.mp hw
    exact ((h txn htxn).keeps w hmem).2
  simp only [logOf, flatten_append, foldl_append]
  exact foldl_logWrite_append keeps _

theorem write_data_of_ne {t : Tables} {w : TableWrite} (keeps : w ≠ .deleteDataTable)
    (insert : ∀ row, w ≠ .dataInsert id row) (remove : w ≠ .dataRemove id) : (t.write w).data[id]? = t.data[id]? := by
  cases w with
  | dataInsert id' row =>
    have hne : id' ≠ id := fun h => insert row (by rw [h])
    simp [write, ExtTreeMap.getElem?_insert, hne]
  | dataRemove id' =>
    have hne : id' ≠ id := fun h => remove (by rw [h])
    simp [write, ExtTreeMap.getElem?_erase, hne]
  | deleteDataTable => exact absurd rfl keeps
  | _ => rfl

theorem run_data_of_not_logged (hok : TxnOk txn) (hid : ∀ seq, (seq, id) ∉ logOf [txn]) (t : Tables) :
    (t.run txn).data[id]? = t.data[id]? := by
  have insert : ∀ w ∈ txn, ∀ row, w ≠ .dataInsert id row := by
    rintro w hw row rfl
    obtain ⟨seq, hseq⟩ := hok.logged id (Or.inl ⟨row, hw⟩)
    exact hid seq hseq
  have remove : ∀ w ∈ txn, w ≠ .dataRemove id := by
    rintro w hw rfl
    obtain ⟨seq, hseq⟩ := hok.logged id (Or.inr hw)
    exact hid seq hseq
  have step : ∀ (ws : List TableWrite) (t : Tables), (∀ w ∈ ws, w ∈ txn) → (t.run ws).data[id]? = t.data[id]? := by
    intro ws
    induction ws with
    | nil => intro t _; rfl
    | cons w rest ih =>
      intro t hsub
      have hw := hsub w (mem_cons_self ..)
      rw [run, foldl_cons, ← run, ih _ fun w hw => hsub w (mem_cons_of_mem _ hw)]
      exact write_data_of_ne (hok.keeps w hw).1 (insert w hw) (remove w hw)
  exact step txn t fun _ h => h

theorem after_data_of_not_logged (hok : ∀ txn ∈ ys, TxnOk txn) (hid : ∀ seq, (seq, id) ∉ logOf ys) :
    (Tables.after (xs ++ ys)).data[id]? = (Tables.after xs).data[id]? := by
  induction ys using reverseRecOn with
  | nil => simp
  | append_singleton ys txn ih =>
    have hys : ∀ txn ∈ ys, TxnOk txn := fun t ht => hok t (mem_append_left _ ht)
    have htxn : ∀ t ∈ [txn], TxnOk t := fun t ht => hok t (mem_append_right _ ht)
    rw [logOf_append htxn] at hid
    rw [← append_assoc, after_concat,
      run_data_of_not_logged (htxn txn (by simp)) (fun seq h => hid seq (mem_append_right _ h)),
      ih hys fun seq h => hid seq (mem_append_left _ h)]

end Log

/-! ### What the WAL holds of the log -/

/-- The sequence recorded as committed, `0` when none is. -/
def Tables.persisted (t : Tables) : Nat := t.recoveryMeta.getD 0

/-- The WAL holds exactly the logged operations above the persisted checkpoint. -/
def WalMatches (t : Tables) (log : List (Nat × String)) : Prop :=
  ∀ seq id, (∃ entry, t.wal[seq]? = some entry ∧ decodeWalEntry entry = id) ↔ (seq, id) ∈ log ∧ t.persisted < seq

section Wal
variable {t : Tables} {log : List (Nat × String)}

/-- A new entry above everything logged and persisted is found under its own number. -/
theorem WalMatches.walInsert (h : WalMatches t log) {seq : Nat} (entry : WalEntry) (fresh : ∀ e ∈ log, e.1 < seq)
    (above : t.persisted < seq) :
    WalMatches (t.write (.walInsert seq entry)) (logWrite log (.walInsert seq entry)) := by
  intro k id
  have hp : (t.write (.walInsert seq entry)).persisted = t.persisted := rfl
  rw [hp]
  simp only [write, logWrite, mem_append, mem_singleton, Prod.mk.injEq, ExtTreeMap.getElem?_insert,
    Nat.compare_eq_eq]
  by_cases hk : seq = k
  · subst hk
    have hnot : (seq, id) ∉ log := fun hm => absurd (fresh _ hm) (Nat.lt_irrefl _)
    simp only [↓reduceIte, Option.some.injEq, exists_eq_left', hnot, true_and, false_or, above, and_true]
    exact eq_comm
  · rw [if_neg hk, h k id]
    simp [Ne.symm hk]

theorem WalMatches.checkpoint (h : WalMatches t log) {seq : Nat} (above : t.persisted ≤ seq) :
    WalMatches (t.run [.walTruncate seq, .metaInsert seq]) log := by
  intro k id
  have hp : (t.run [.walTruncate seq, .metaInsert seq]).persisted = seq := rfl
  have hw : (t.run [.walTruncate seq, .metaInsert seq]).wal = t.wal.filter fun k _ => seq < k := rfl
  rw [hp, hw, ExtTreeMap.getElem?_filter']
  by_cases hk : seq < k
  · have := h k id
    simp only [hk, Nat.lt_of_le_of_lt above hk, and_true] at this ⊢
    rw [← this]
    cases t.wal[k]? with
    | none => simp
    | some entry => simp [Option.filter]
  · cases t.wal[k]? with
    | none => simp [hk]
    | some entry => simp [Option.filter, hk]

theorem maxWalSeq_spec (t : Tables) :
    (t.maxWalSeq = 0 ∧ ∀ seq, 0 < seq → t.wal[seq]? = none) ∨
      ((∃ entry, t.wal[t.maxWalSeq]? = some entry) ∧ ∀ seq entry, t.wal[seq]? = some entry → seq ≤ t.maxWalSeq) := by
  unfold maxWalSeq
  rw [← ExtTreeMap.maxKey?_eq_getLast?_keys]
  cases hmax : t.wal.maxKey? with
  | none =>
    refine Or.inl ⟨rfl, fun seq _ => ?_⟩
    rw [ExtTreeMap.maxKey?_eq_none_iff] at hmax
    simp [hmax]
  | some km =>
    obtain ⟨hmem, hle⟩ := ExtTreeMap.maxKey?_eq_some_iff_mem_and_forall.mp hmax
    refine Or.inr ⟨ExtTreeMap.mem_iff_isSome_getElem?.mp hmem |> Option.isSome_iff_exists.mp, fun seq entry h => ?_⟩
    have hseq : seq ∈ t.wal := ExtTreeMap.mem_iff_isSome_getElem?.mpr (by rw [h]; rfl)
    have := hle seq hseq
    simpa [Nat.isLE_compare] using this

end Wal

end CameoDb
