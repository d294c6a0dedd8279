import Mathlib.Data.Rat.Floor

/-! # Rate limits

A meter keeps a bucket of tokens for each key and for each group of addresses. Key ids are hex digits, so none of
them is the name of the bucket that callers nothing identifies share. -/

namespace CameoDb

structure Rate where
  perMinute : Nat
  burst : Nat

def Rate.enabled (rate : Rate) : Bool := 0 < rate.perMinute

def Rate.capacity (rate : Rate) : ℚ := if 0 < rate.burst then rate.burst else rate.perMinute

def Rate.refillPerSec (rate : Rate) : ℚ := rate.perMinute / 60

inductive Caller (K A : Type) where
  | key (id : K)
  | address (ip : A)
  | unattributed

/-- A check the limiter is asked for: who asks, what for, and when. -/
structure RateCheck (K A : Type) where
  caller : Caller K A
  cost : Nat
  now : ℚ

structure Bucket where
  tokens : ℚ
  last : ℚ

def Bucket.refilled (bucket : Bucket) (rate : Rate) (now : ℚ) : ℚ :=
  min (bucket.tokens + max (now - bucket.last) 0 * rate.refillPerSec) rate.capacity

inductive BucketSlot (K G : Type) where
  | keyed (id : K)
  | anon (group : G)
  | unidentified
deriving DecidableEq

/-- The tables of one meter. Of the anonymous callers, `tracked` are the groups that have a bucket. -/
structure Buckets (K G : Type) where
  keyed : K → Option Bucket
  unidentified : Option Bucket
  tracked : List G
  anon : G → Bucket

inductive RateVerdict where
  | allow
  | deny (retryAfterSecs : Nat)
deriving DecidableEq

def maxAnonymousBuckets : Nat := 4096

/-- A meter's rate, and `address_group`. -/
structure Meter (A G : Type) where
  rate : Rate
  addressGroup : A → G

variable {K A G : Type} [DecidableEq K] [DecidableEq G]

namespace Buckets

def empty (now : ℚ) : Buckets K G := ⟨fun _ => none, none, [], fun _ => ⟨0, now⟩⟩

def dropFullAnonymous (s : Buckets K G) (rate : Rate) (now : ℚ) : Buckets K G :=
  { s with tracked := s.tracked.filter fun group => (s.anon group).refilled rate now < rate.capacity }

def get? (s : Buckets K G) : BucketSlot K G → Option Bucket
  | .keyed id => s.keyed id
  | .anon group => if group ∈ s.tracked then some (s.anon group) else none
  | .unidentified => s.unidentified

def set (s : Buckets K G) (slot : BucketSlot K G) (bucket : Bucket) : Buckets K G :=
  match slot with
  | .keyed id => { s with keyed := Function.update s.keyed id (some bucket) }
  | .anon group =>
    { s with
      tracked := if group ∈ s.tracked then s.tracked else group :: s.tracked
      anon := Function.update s.anon group bucket }
  | .unidentified => { s with unidentified := some bucket }

end Buckets

namespace Meter

/-- The slot of a caller that has room for one. -/
def ownSlot (m : Meter A G) : Caller K A → BucketSlot K G
  | .key id => .keyed id
  | .address ip => .anon (m.addressGroup ip)
  | .unattributed => .unidentified

def slotFor (m : Meter A G) (s : Buckets K G) (caller : Caller K A) (now : ℚ) : BucketSlot K G × Buckets K G :=
  match caller with
  | .key id => (.keyed id, s)
  | .unattributed => (.unidentified, s)
  | .address ip =>
    let group := m.addressGroup ip
    if group ∈ s.tracked then (.anon group, s)
    else
      let s := if maxAnonymousBuckets ≤ s.tracked.length then s.dropFullAnonymous m.rate now else s
      if maxAnonymousBuckets ≤ s.tracked.length then (.unidentified, s) else (.anon group, s)

def charge (m : Meter A G) (cost : Nat) : ℚ := min (max cost 1 : Nat) m.rate.capacity

/-- What a bucket with so many tokens answers, and what is left of them. -/
def judge (m : Meter A G) (cost : Nat) (tokens : ℚ) : RateVerdict × ℚ :=
  if m.charge cost ≤ tokens then (.allow, tokens - m.charge cost)
  else (.deny (max ⌈(m.charge cost - tokens) / m.rate.refillPerSec⌉₊ 1), tokens)

/-- `check_at` once the slot is known. -/
def spend (m : Meter A G) (s : Buckets K G) (slot : BucketSlot K G) (cost : Nat) (now : ℚ) :
    RateVerdict × Buckets K G :=
  let bucket := (s.get? slot).getD ⟨m.rate.capacity, now⟩
  let (verdict, tokens) := m.judge cost (bucket.refilled m.rate now)
  (verdict, s.set slot ⟨tokens, now⟩)

def checkAt (m : Meter A G) (s : Buckets K G) (check : RateCheck K A) : RateVerdict × Buckets K G :=
  if m.rate.enabled then
    let (slot, s) := m.slotFor s check.caller check.now
    m.spend s slot check.cost check.now
  else (.allow, s)

/-- The limiter that keeps every bucket for ever. -/
def checkKept (m : Meter A G) (s : Buckets K G) (check : RateCheck K A) : RateVerdict × Buckets K G :=
  m.spend s (m.ownSlot check.caller) check.cost check.now

end Meter

end CameoDb
