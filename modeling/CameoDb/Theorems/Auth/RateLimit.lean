import CameoDb.Auth.RateLimit

/-! # The token bucket bounds every caller

A meter's tables stand for a ledger: how many tokens each slot holds at the time of the last check. A slot without a
bucket holds a full one, so dropping full buckets changes no ledger. -/

namespace CameoDb
open Buckets

/-- What each slot holds, and when. -/
structure TokenLedger (S : Type) where
  held : S → ℚ
  now : ℚ

section Ledger
variable {S A G : Type} {rate : Rate} {l : TokenLedger S} {now later : ℚ} {slot : S}

def TokenLedger.heldAt (l : TokenLedger S) (rate : Rate) (now : ℚ) (slot : S) : ℚ :=
  min (l.held slot + (now - l.now) * rate.refillPerSec) rate.capacity

theorem Rate.refill_nonneg (rate : Rate) : 0 ≤ rate.refillPerSec := by
  unfold Rate.refillPerSec
  positivity

theorem Rate.capacity_nonneg (rate : Rate) : 0 ≤ rate.capacity := by
  unfold Rate.capacity
  split_ifs <;> positivity

theorem TokenLedger.heldAt_heldAt (h : now ≤ later) :
    TokenLedger.heldAt ⟨l.heldAt rate now, now⟩ rate later slot = l.heldAt rate later slot := by
  have hearned : 0 ≤ (later - now) * rate.refillPerSec := mul_nonneg (sub_nonneg.mpr h) rate.refill_nonneg
  simp only [TokenLedger.heldAt]
  rcases le_total (l.held slot + (now - l.now) * rate.refillPerSec) rate.capacity with hle | hle
  · rw [min_eq_left hle]
    ring_nf
  · rw [min_eq_right hle, min_eq_right (by linarith), min_eq_right]
    linarith [show (later - l.now) * rate.refillPerSec =
      (now - l.now) * rate.refillPerSec + (later - now) * rate.refillPerSec by ring]

theorem TokenLedger.heldAt_nonneg (rate : Rate) (h : 0 ≤ l.held slot) (hnow : l.now ≤ now) :
    0 ≤ l.heldAt rate now slot :=
  le_min (add_nonneg h (mul_nonneg (sub_nonneg.mpr hnow) rate.refill_nonneg)) rate.capacity_nonneg

theorem Meter.charge_nonneg (m : Meter A G) (cost : Nat) : 0 ≤ m.charge cost :=
  le_min (Nat.cast_nonneg _) m.rate.capacity_nonneg

end Ledger

section Runs
variable {K A G σ : Type}

def verdicts (step : σ → RateCheck K A → RateVerdict × σ) : σ → List (RateCheck K A) → List RateVerdict
  | _, [] => []
  | s, check :: checks => (step s check).1 :: verdicts step (step s check).2 checks

def afterChecks (step : σ → RateCheck K A → RateVerdict × σ) (s : σ) (checks : List (RateCheck K A)) : σ :=
  checks.foldl (fun s check => (step s check).2) s

def Timed : ℚ → List (RateCheck K A) → Prop
  | _, [] => True
  | now, check :: checks => now ≤ check.now ∧ Timed check.now checks

/-- What a slot is charged between two times. -/
def charged [DecidableEq K] [DecidableEq G] (m : Meter A G) (slot : BucketSlot K G) (start stop : ℚ) :
    List (RateCheck K A) → List RateVerdict → ℚ
  | check :: checks, verdict :: rest =>
    (if verdict = .allow ∧ m.ownSlot check.caller = slot ∧ start ≤ check.now ∧ check.now ≤ stop then
    m.charge check.cost else 0) + charged m slot start stop checks rest
  | _, _ => 0

/-- No address falls back to the shared bucket. -/
def NoFallback [DecidableEq K] [DecidableEq G] (m : Meter A G) : Buckets K G → List (RateCheck K A) → Prop
  | _, [] => True
  | s, check :: checks =>
    (m.slotFor s check.caller check.now).1 = m.ownSlot check.caller ∧ NoFallback m (m.checkAt s check).2 checks

/-- One that was refused a cost, waits as long as it was told and asks for nothing meanwhile is then admitted. -/
def WaitsOnce (m : Meter A G) (checks : List (RateCheck K A)) (answers : List RateVerdict) : Prop :=
  ∀ front check mid again rest (retry : Nat), checks = front ++ check :: (mid ++ again :: rest) →
    m.ownSlot again.caller = (m.ownSlot check.caller : BucketSlot K G) → again.cost = check.cost →
    (∀ other ∈ mid, m.ownSlot other.caller ≠ (m.ownSlot check.caller : BucketSlot K G)) →
    answers[front.length]? = some (.deny retry) → check.now + (retry : ℚ) ≤ again.now →
      answers[front.length + 1 + mid.length]? = some .allow

variable {step : σ → RateCheck K A → RateVerdict × σ} {checks mid : List (RateCheck K A)}
  {check : RateCheck K A} {now : ℚ}

theorem Timed.le (h : Timed now (mid ++ check :: checks)) : now ≤ check.now := by
  induction mid generalizing now with
  | nil => exact h.1
  | cons first mid ih => exact h.1.trans (ih h.2)

theorem verdicts_get (s : σ) (front : List (RateCheck K A)) :
    (verdicts step s (front ++ check :: checks))[front.length]? = some (step (afterChecks step s front) check).1 := by
  induction front generalizing s with
  | nil => rfl
  | cons first front ih => exact ih (step s first).2

end Runs

section Settled
variable {K A G : Type} [DecidableEq K] [DecidableEq G] {m : Meter A G} {l : TokenLedger (BucketSlot K G)}
  {check : RateCheck K A} {checks mid : List (RateCheck K A)} {slot : BucketSlot K G} {now later start stop : ℚ}

def Meter.settle (m : Meter A G) (l : TokenLedger (BucketSlot K G)) (check : RateCheck K A) :
    RateVerdict × TokenLedger (BucketSlot K G) :=
  let slot := m.ownSlot check.caller
  let judged := m.judge check.cost (l.heldAt m.rate check.now slot)
  (judged.1, ⟨Function.update (l.heldAt m.rate check.now) slot judged.2, check.now⟩)

theorem Meter.settle_verdict (m : Meter A G) (l : TokenLedger (BucketSlot K G)) (check : RateCheck K A) :
    (m.settle l check).1 = if m.charge check.cost ≤ l.heldAt m.rate check.now (m.ownSlot check.caller) then .allow
      else .deny (max ⌈(m.charge check.cost - l.heldAt m.rate check.now (m.ownSlot check.caller))
      / m.rate.refillPerSec⌉₊ 1) := by
  simp only [Meter.settle, Meter.judge]
  split_ifs <;> rfl

/-- What one check leaves: all but the tokens it took from the slot of its caller. -/
theorem Meter.settle_held (m : Meter A G) (l : TokenLedger (BucketSlot K G)) (check : RateCheck K A)
    (slot : BucketSlot K G) : (m.settle l check).2.held slot +
      (if (m.settle l check).1 = .allow ∧ m.ownSlot check.caller = slot then m.charge check.cost else 0) =
        l.heldAt m.rate check.now slot := by
  simp only [Meter.settle, Meter.judge]
  by_cases hslot : m.ownSlot check.caller = slot
  · subst hslot
    split_ifs with hcost <;> simp_all
  · simp [hslot, Ne.symm hslot]

theorem Meter.settle_nonneg (m : Meter A G) (h : ∀ slot, 0 ≤ l.held slot) (hnow : l.now ≤ check.now)
    (slot : BucketSlot K G) : 0 ≤ (m.settle l check).2.held slot := by
  have hheld := m.settle_held l check slot
  have hfree := TokenLedger.heldAt_nonneg m.rate (h slot) hnow
  split_ifs at hheld with hallow
  · obtain ⟨hallow, rfl⟩ := hallow
    rw [m.settle_verdict] at hallow
    split_ifs at hallow with hcost
    linarith
  · linarith

theorem charged_of_late (h : Timed now checks) (hlate : stop < now) (answers : List RateVerdict) :
    charged m slot start stop checks answers = 0 := by
  induction checks generalizing answers now with
  | nil => cases answers <;> rfl
  | cons check checks ih =>
    obtain ⟨hle, hrest⟩ := h
    cases answers with
    | nil => rfl
    | cons answer answers =>
      rw [charged, if_neg fun hin => absurd hin.2.2.2 (by linarith), ih hrest (by linarith), add_zero]

theorem charged_cons_le (slot : BucketSlot K G) (start : ℚ)
    (hrest : charged m slot start stop checks (verdicts m.settle (m.settle l check).2 checks) ≤
      (m.settle l check).2.held slot + (stop - check.now) * m.rate.refillPerSec) :
    charged m slot start stop (check :: checks) (verdicts m.settle l (check :: checks)) ≤
      l.heldAt m.rate check.now slot + (stop - check.now) * m.rate.refillPerSec := by
  rw [verdicts, charged, ← m.settle_held l check slot]
  have hcounted : (if (m.settle l check).1 = .allow ∧ m.ownSlot check.caller = slot ∧ start ≤ check.now ∧
    check.now ≤ stop then
      m.charge check.cost else 0) ≤
        if (m.settle l check).1 = .allow ∧ m.ownSlot check.caller = slot then m.charge check.cost else 0 := by
    split_ifs with hin hown hown
    · exact le_rfl
    · exact absurd ⟨hin.1, hin.2.1⟩ hown
    · exact m.charge_nonneg check.cost
    · exact le_rfl
  linarith

theorem charged_le_held (hl : ∀ slot, 0 ≤ l.held slot) (h : Timed l.now checks) (hstop : l.now ≤ stop) :
    charged m slot start stop checks (verdicts m.settle l checks) ≤
    l.held slot + (stop - l.now) * m.rate.refillPerSec := by
  have hfree : 0 ≤ l.held slot + (stop - l.now) * m.rate.refillPerSec :=
    add_nonneg (hl slot) (mul_nonneg (sub_nonneg.mpr hstop) m.rate.refill_nonneg)
  induction checks generalizing l with
  | nil => exact hfree
  | cons check checks ih =>
    obtain ⟨hle, hrest⟩ := h
    rcases lt_or_ge stop check.now with hlate | hin
    · rwa [verdicts, charged, if_neg fun hin => absurd hin.2.2.2 (not_le.mpr hlate),
        charged_of_late hrest hlate, add_zero]
    · have hl' := m.settle_nonneg hl hle
      have hone := charged_cons_le slot start (ih hl' hrest hin
        (add_nonneg (hl' slot) (mul_nonneg (sub_nonneg.mpr hin) m.rate.refill_nonneg)))
      have hearned : l.heldAt m.rate check.now slot ≤ l.held slot + (check.now - l.now) * m.rate.refillPerSec :=
        min_le_left _ _
      linarith

/-- A window's first check finds at most a full bucket. -/
theorem charged_le (hl : ∀ slot, 0 ≤ l.held slot) (h : Timed l.now checks) (hwindow : start ≤ stop) :
    charged m slot start stop checks (verdicts m.settle l checks) ≤ m.rate.capacity +
    (stop - start) * m.rate.refillPerSec := by
  have hfree : 0 ≤ m.rate.capacity + (stop - start) * m.rate.refillPerSec :=
    add_nonneg m.rate.capacity_nonneg (mul_nonneg (sub_nonneg.mpr hwindow) m.rate.refill_nonneg)
  induction checks generalizing l with
  | nil => exact hfree
  | cons check checks ih =>
    obtain ⟨hle, hrest⟩ := h
    have hl' := m.settle_nonneg hl hle
    rcases lt_or_ge check.now start with hearly | hstart
    · rw [verdicts, charged, if_neg fun hin => absurd hin.2.2.1 (not_le.mpr hearly), zero_add]
      exact ih hl' hrest
    · rcases lt_or_ge stop check.now with hlate | hin
      · rwa [verdicts, charged, if_neg fun hin => absurd hin.2.2.2 (not_le.mpr hlate),
          charged_of_late hrest hlate, add_zero]
      · have hone := charged_cons_le slot start (charged_le_held hl' hrest hin)
        have hfull : l.heldAt m.rate check.now slot ≤ m.rate.capacity := min_le_right _ _
        have := mul_nonneg (sub_nonneg.mpr hstart) m.rate.refill_nonneg
        linarith

theorem heldAt_afterChecks {again : RateCheck K A} (h : Timed l.now (mid ++ again :: checks))
    (hother : ∀ other ∈ mid, m.ownSlot other.caller ≠ slot) :
    (afterChecks m.settle l mid).heldAt m.rate again.now slot = l.heldAt m.rate again.now slot := by
  induction mid generalizing l with
  | nil => rfl
  | cons check mid ih =>
    obtain ⟨hslot, hother⟩ := List.forall_mem_cons.mp hother
    have hheld := m.settle_held l check slot
    rw [if_neg fun hin => hslot hin.2, add_zero] at hheld
    refine (ih (l := (m.settle l check).2) h.2 hother).trans (Eq.trans ?_ (TokenLedger.heldAt_heldAt h.2.le))
    rw [TokenLedger.heldAt, hheld]
    rfl

theorem Timed.after {front : List (RateCheck K A)} (h : Timed l.now (front ++ checks)) :
    Timed (afterChecks m.settle l front).now checks := by
  induction front generalizing l with
  | nil => exact h
  | cons first front ih => exact ih (l := (m.settle l first).2) h.2

theorem waitsOnce_settle (hrate : 0 < m.rate.perMinute) (h : Timed l.now checks) :
    WaitsOnce m checks (verdicts m.settle l checks) := by
  rintro front check mid again rest retry rfl hslot hcost hmid hdeny hwaits
  obtain ⟨-, hrest⟩ : Timed (afterChecks m.settle l front).now (check :: (mid ++ again :: rest)) := h.after
  have hheld := m.settle_held (afterChecks m.settle l front) check (m.ownSlot check.caller)
  have hmid := heldAt_afterChecks (l := (m.settle (afterChecks m.settle l front) check).2) hrest hmid
  have hpos : 0 < m.rate.refillPerSec := by
    unfold Rate.refillPerSec
    positivity
  rw [verdicts_get, Option.some.injEq] at hdeny
  rw [if_neg (by simp [hdeny]), add_zero] at hheld
  rw [m.settle_verdict] at hdeny
  have hlength : front.length + 1 + mid.length = (front ++ check :: mid).length := by
    simp
    omega
  rw [show front ++ check :: (mid ++ again :: rest) = (front ++ check :: mid) ++ again :: rest by simp, hlength,
    verdicts_get, m.settle_verdict, hslot, hcost, if_pos]
  rw [show afterChecks m.settle l (front ++ check :: mid) =
    afterChecks m.settle (m.settle (afterChecks m.settle l front) check).2 mid by
      simp [afterChecks], hmid, TokenLedger.heldAt, hheld]
  split_ifs at hdeny with hin
  -- The wait earns what was missing.
  have hceil := (Nat.le_ceil
    ((m.charge check.cost - (afterChecks m.settle l front).heldAt m.rate check.now (m.ownSlot check.caller)) /
    m.rate.refillPerSec)).trans (Nat.cast_le.mpr (le_max_left _ 1))
  rw [RateVerdict.deny.inj hdeny, div_le_iff₀ hpos] at hceil
  have hearned := mul_le_mul_of_nonneg_right (show (retry : ℚ) ≤ again.now - check.now by linarith) hpos.le
  refine le_min ?_ (min_le_right _ _)
  show _ ≤ _ + (again.now - check.now) * m.rate.refillPerSec
  linarith

end Settled

/-! ### The tables of a meter -/

section Tables
variable {K A G : Type} [DecidableEq K] [DecidableEq G] {m : Meter A G} {s : Buckets K G}
  {l : TokenLedger (BucketSlot K G)}
  {check : RateCheck K A} {checks : List (RateCheck K A)} {slot other : BucketSlot K G}
      {now later : ℚ} {bucket : Bucket}

/-- From `now` on, each slot holds what the ledger says. A slot that has no bucket would be given a full one. -/
def Stands (m : Meter A G) (s : Buckets K G) (l : TokenLedger (BucketSlot K G)) (now : ℚ) : Prop :=
  ∀ slot later, now ≤ later →
    ((s.get? slot).getD ⟨m.rate.capacity, later⟩).refilled m.rate later = l.heldAt m.rate later slot

theorem Buckets.get?_set (s : Buckets K G) (slot other : BucketSlot K G) (bucket : Bucket) :
    (s.set slot bucket).get? other = if other = slot then some bucket else s.get? other := by
  cases slot with
  | keyed id =>
    cases other with
    | keyed id' => simp [set, Buckets.get?, Function.update_apply]
    | anon group' => rfl
    | unidentified => rfl
  | unidentified => cases other <;> rfl
  | anon group =>
    cases other with
    | keyed id' => rfl
    | unidentified => rfl
    | anon group' =>
      by_cases hsame : group' = group <;> by_cases htracked : group ∈ s.tracked <;>
        simp [set, Buckets.get?, hsame, htracked]

theorem refilled_full (rate : Rate) (later : ℚ) :
    Bucket.refilled ⟨rate.capacity, later⟩ rate later = rate.capacity := by
  simp [Bucket.refilled]

theorem Stands.spend (h : Stands m s l check.now) :
    (m.spend s (m.ownSlot check.caller) check.cost check.now).1 = (m.settle l check).1 ∧
      Stands m (m.spend s (m.ownSlot check.caller) check.cost check.now).2 (m.settle l check).2 check.now := by
  have hown := h (m.ownSlot check.caller) check.now le_rfl
  refine ⟨by simp only [Meter.spend, Meter.settle, hown], fun slot later hlater => ?_⟩
  simp only [Meter.spend, Meter.settle, hown, get?_set, TokenLedger.heldAt, Function.update_apply]
  split_ifs with hslot
  · rw [Option.getD_some, Bucket.refilled, max_eq_left (sub_nonneg.mpr hlater)]
  · exact (h slot later hlater).trans (TokenLedger.heldAt_heldAt hlater).symm

omit [DecidableEq K] in
theorem Stands.dropFullAnonymous (h : Stands m s l now) : Stands m (s.dropFullAnonymous m.rate now) l now := by
  intro slot later hlater
  have hheld := h slot later hlater
  cases slot with
  | keyed id => exact hheld
  | unidentified => exact hheld
  | anon group =>
    by_cases htracked : group ∈ s.tracked
    · by_cases hfull : (s.anon group).refilled m.rate now < m.rate.capacity
      · simpa [Buckets.get?, Buckets.dropFullAnonymous, htracked, hfull] using hheld
      · -- A bucket that was full stays full, and a new one is full.
        have hnow : m.rate.capacity ≤ l.heldAt m.rate now (.anon group) := by
          have hnow := h (.anon group) now le_rfl
          rw [Buckets.get?, if_pos htracked, Option.getD_some] at hnow
          exact hnow ▸ not_lt.mp hfull
        rw [← TokenLedger.heldAt_heldAt hlater, TokenLedger.heldAt, min_eq_right, Buckets.get?,
          if_neg (by simp [Buckets.dropFullAnonymous, hfull])]
        · exact refilled_full m.rate later
        · exact hnow.trans (le_add_of_nonneg_right (mul_nonneg (sub_nonneg.mpr hlater) m.rate.refill_nonneg))
    · simpa [Buckets.get?, Buckets.dropFullAnonymous, htracked] using hheld

omit [DecidableEq K] in
theorem Stands.slotFor (h : Stands m s l now) (caller : Caller K A) : Stands m (m.slotFor s caller now).2 l now := by
  cases caller with
  | key id => exact h
  | unattributed => exact h
  | address ip =>
    simp only [Meter.slotFor]
    split_ifs
    all_goals first | exact h | exact h.dropFullAnonymous

theorem verdicts_checkAt (hrate : 0 < m.rate.perMinute) (h : Stands m s l l.now) (horder : Timed l.now checks)
    (hno : NoFallback m s checks) : verdicts m.checkAt s checks = verdicts m.settle l checks := by
  induction checks generalizing s l with
  | nil => rfl
  | cons check checks ih =>
    have hstands := Stands.slotFor (fun slot later hlater => h slot later (horder.1.trans hlater)) check.caller
    have hcheck : m.checkAt s check =
        m.spend (m.slotFor s check.caller check.now).2 (m.ownSlot check.caller) check.cost check.now := by
      rw [← hno.1, Meter.checkAt, if_pos (show m.rate.enabled = true from decide_eq_true hrate)]
    obtain ⟨hverdict, hafter⟩ := hstands.spend
    rw [verdicts, verdicts, hcheck, hverdict, ih hafter horder.2 (hcheck ▸ hno.2)]

theorem verdicts_checkKept (h : Stands m s l l.now) (horder : Timed l.now checks) :
    verdicts m.checkKept s checks = verdicts m.settle l checks := by
  induction checks generalizing s l with
  | nil => rfl
  | cons check checks ih =>
    obtain ⟨hverdict, hafter⟩ := Stands.spend fun slot later hlater => h slot later (horder.1.trans hlater)
    rw [verdicts, verdicts, Meter.checkKept, hverdict, ih hafter horder.2]

end Tables

/-- Over every run of a meter in which no address falls back: what a slot is charged in a window, that one who waits
    is admitted, and that no verdict depends on the buckets that were dropped. -/
theorem token_bucket_bounds_callers {K A G : Type} [DecidableEq K] [DecidableEq G] (m : Meter A G)
    (hrate : 0 < m.rate.perMinute) (now : ℚ) (checks : List (RateCheck K A)) (horder : Timed now checks)
    (hno : NoFallback m (empty now : Buckets K G) checks) :
    (∀ (slot : BucketSlot K G) (start stop : ℚ), start ≤ stop →
      charged m slot start stop checks (verdicts m.checkAt (empty now : Buckets K G) checks) ≤
        m.rate.capacity + (stop - start) * m.rate.refillPerSec) ∧
    WaitsOnce m checks (verdicts m.checkAt (empty now : Buckets K G) checks) ∧
    verdicts m.checkAt (empty now : Buckets K G) checks = verdicts m.checkKept (empty now : Buckets K G) checks := by
  let l : TokenLedger (BucketSlot K G) := ⟨fun _ => m.rate.capacity, now⟩
  have hstands : Stands m (empty now) l l.now := by
    intro slot later hlater
    have hnone : (empty now : Buckets K G).get? slot = none := by cases slot <;> rfl
    rw [hnone, Option.getD_none, refilled_full, TokenLedger.heldAt, min_eq_right]
    exact le_add_of_nonneg_right (mul_nonneg (sub_nonneg.mpr hlater) m.rate.refill_nonneg)
  rw [verdicts_checkAt hrate hstands horder hno, verdicts_checkKept hstands horder]
  exact ⟨fun slot start stop hwindow => charged_le (l := l) (fun _ => m.rate.capacity_nonneg) horder hwindow,
    waitsOnce_settle hrate horder, rfl⟩

def minuteMeter : Meter Unit Unit := ⟨⟨60, 0⟩, id⟩

def twoCalls : List (RateCheck Unit Unit) := [⟨.address (), 60, 0⟩, ⟨.address (), 1, 1⟩]

theorem token_bucket_bounds_twoCalls :
    charged minuteMeter (.anon ()) 0 1 twoCalls (verdicts minuteMeter.checkAt (empty 0) twoCalls) ≤
      minuteMeter.rate.capacity + (1 - 0) * minuteMeter.rate.refillPerSec :=
  (token_bucket_bounds_callers minuteMeter (by decide) 0 twoCalls ⟨le_rfl, zero_le_one, trivial⟩
    ⟨rfl, rfl, trivial⟩).1 _ 0 1
    zero_le_one

/-! ### Room -/

section Room
variable {K A G : Type} [DecidableEq K] [DecidableEq G]

theorem checkAt_tracked (m : Meter A G) {s : Buckets K G} (h : s.tracked.length ≤ maxAnonymousBuckets)
    (check : RateCheck K A) : (m.checkAt s check).2.tracked.length ≤ maxAnonymousBuckets := by
  have hdropped : (s.dropFullAnonymous m.rate check.now).tracked.length ≤ maxAnonymousBuckets :=
    (List.length_filter_le ..).trans h
  simp only [Meter.checkAt, Meter.spend, Meter.slotFor]
  cases check.caller with
  | key | unattributed => split_ifs <;> exact h
  | address ip => split_ifs <;> grind [Buckets.set]

/-- However many addresses ask, a meter has a bucket for so many groups of them at most. -/
theorem anonymous_buckets_bounded (m : Meter A G) (start : ℚ) (checks : List (RateCheck K A)) :
    (afterChecks m.checkAt (Buckets.empty start) checks).tracked.length ≤ maxAnonymousBuckets :=
  List.foldlRecOn (motive := fun s : Buckets K G => s.tracked.length ≤ maxAnonymousBuckets) checks _ (Nat.zero_le _)
    fun _ h check _ => checkAt_tracked m h check

end Room

end CameoDb
