import Mathlib.Algebra.GroupWithZero.Nat
import Mathlib.Logic.Function.Basic

/-! # The histogram of service times

A sample counts in one bucket: linear below 16 µs, then four buckets to each octave. A quantile reports the upper
edge of the bucket it lands in. -/

namespace CameoDb

def serviceBuckets : Nat := 256

def leadingZeros (sample : Nat) : Nat := if sample = 0 then 64 else 63 - sample.log2

def bucketOf (sample : Nat) : Nat :=
  if sample < 16 then sample
  else
    let exponent := 63 - leadingZeros sample
    let sub := (sample >>> (exponent - 2)) &&& 3
    min (16 + (exponent - 4) * 4 + sub) (serviceBuckets - 1)

/-- The edge before its bits are cut to the width of a `u64`. -/
def edgeBits (bucket : Nat) : Nat :=
  if bucket < 16 then bucket
  else
    let exponent := 4 + (bucket - 16) / 4
    let sub := (bucket - 16) % 4
    (5 + sub) <<< (exponent - 2)

def bucketUpperUs (bucket : Nat) : Nat := edgeBits bucket % 2 ^ 64

def recordSample (counts : Nat → Nat) (sample : Nat) : Nat → Nat :=
  Function.update counts (bucketOf sample) (counts (bucketOf sample) + 1)

def quantileLoop (counts : Nat → Nat) (target : Nat) : List Nat → Nat → Option Nat
  | [], _ => none
  | bucket :: buckets, seen =>
    let seen := seen + counts bucket
    if target ≤ seen then some (bucketUpperUs bucket) else quantileLoop counts target buckets seen

/-- `target` is the total as a double times the quantile, rounded up. -/
def quantileOf (counts : Nat → Nat) (target : Nat → Nat) : Option Nat :=
  let total := ((List.range serviceBuckets).map counts).sum
  if total = 0 then none else quantileLoop counts (target total) (List.range serviceBuckets) 0

end CameoDb
