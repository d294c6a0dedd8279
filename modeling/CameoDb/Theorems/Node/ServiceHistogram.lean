import CameoDb.Node.ServiceHistogram
import Mathlib.Tactic.IntervalCases

/-! # Latency buckets bound their samples

A sample of 16 µs or more is four to seven quarters of a power of two and a rest. The power and the quarters are its
bucket, and one quarter more is the bucket's edge. -/

namespace CameoDb
open List

section Buckets
variable {sample other bucket : Nat}

/-- The quarters of a power of two a sample holds. -/
theorem bucketOf_quarters (hlow : 16 ≤ sample) (hhigh : sample < 2 ^ 63) :
    ∃ octave sub, octave ≤ 58 ∧ sub < 4 ∧ sample.log2 = octave + 4 ∧ bucketOf sample = 16 + octave * 4 + sub ∧
      sample / 2 ^ (octave + 2) = 4 + sub := by
  have hne : sample ≠ 0 := by omega
  have hfour : 4 ≤ sample.log2 := (Nat.le_log2 hne).mpr hlow
  have hlog : sample.log2 < 63 := (Nat.log2_lt hne).mpr hhigh
  obtain ⟨octave, hoctave⟩ : ∃ octave, sample.log2 = octave + 4 := ⟨sample.log2 - 4, by omega⟩
  have hpow : 2 ^ (octave + 4) = 4 * 2 ^ (octave + 2) := by rw [Nat.pow_add, Nat.pow_add]; omega
  have hle : 4 ≤ sample / 2 ^ (octave + 2) := by
    rw [Nat.le_div_iff_mul_le (Nat.two_pow_pos _), ← hpow, ← hoctave]
    exact Nat.log2_self_le hne
  have hlt : sample / 2 ^ (octave + 2) < 8 := by
    rw [Nat.div_lt_iff_lt_mul (Nat.two_pow_pos _)]
    have hself := (Nat.log2_lt hne).mp (Nat.lt_succ_self _)
    rw [hoctave, Nat.succ_eq_add_one, Nat.pow_succ, hpow] at hself
    omega
  have hsub : (sample >>> (octave + 2)) &&& 3 = sample / 2 ^ (octave + 2) - 4 := by
    rw [Nat.shiftRight_eq_div_pow, show (3 : Nat) = 2 ^ 2 - 1 from rfl, Nat.and_two_pow_sub_one_eq_mod]
    omega
  refine ⟨octave, sample / 2 ^ (octave + 2) - 4, by omega, by omega, hoctave, ?_, by omega⟩
  have hexponent : 63 - leadingZeros sample = octave + 4 := by
    rw [leadingZeros, if_neg hne]
    omega
  simp only [bucketOf, if_neg (show ¬sample < 16 by omega), hexponent, show octave + 4 - 2 = octave + 2 from rfl,
    hsub, serviceBuckets]
  omega

theorem bucketOf_lt_last (h : sample < 2 ^ 63) : bucketOf sample < serviceBuckets - 1 := by
  rcases Nat.lt_or_ge sample 16 with hlow | hlow
  · rw [bucketOf, if_pos hlow, serviceBuckets]
    omega
  · obtain ⟨octave, sub, hoctave, hsub, -, hbucket, -⟩ := bucketOf_quarters hlow h
    rw [hbucket, serviceBuckets]
    omega

theorem bucketOf_mono (h : other < 2 ^ 63) (hle : sample ≤ other) : bucketOf sample ≤ bucketOf other := by
  rcases Nat.lt_or_ge sample 16 with hlow | hlow
  · rw [bucketOf, if_pos hlow]
    rcases Nat.lt_or_ge other 16 with hother | hother
    · rwa [bucketOf, if_pos hother]
    · obtain ⟨octave, sub, -, -, -, hbucket, -⟩ := bucketOf_quarters hother h
      omega
  · obtain ⟨octave, sub, -, hsub, hlog, hbucket, hquarters⟩ := bucketOf_quarters hlow (by omega)
    obtain ⟨octave', sub', -, -, hlog', hbucket', hquarters'⟩ := bucketOf_quarters (hlow.trans hle) h
    have hoctaves : octave ≤ octave' := by
      have hlogs : sample.log2 ≤ other.log2 := (Nat.le_log2 (by omega)).mpr ((Nat.log2_self_le (by omega)).trans hle)
      omega
    rcases Nat.lt_or_eq_of_le hoctaves with hless | rfl
    · omega
    · have := Nat.div_le_div_right (c := 2 ^ (octave + 2)) hle
      omega

theorem edgeBits_bounds (h : sample < 2 ^ 63) :
    sample ≤ edgeBits (bucketOf sample) ∧ 4 * edgeBits (bucketOf sample) ≤ 5 * sample ∧ edgeBits
    (bucketOf sample) < 2 ^ 64 := by
  rcases Nat.lt_or_ge sample 16 with hlow | hlow
  · rw [bucketOf, if_pos hlow, edgeBits, if_pos hlow]
    omega
  · obtain ⟨octave, sub, hoctave, hsub, -, hbucket, hquarters⟩ := bucketOf_quarters hlow h
    have hedge : edgeBits (bucketOf sample) = (5 + sub) * 2 ^ (octave + 2) := by
      have hexponent : 4 + (16 + octave * 4 + sub - 16) / 4 - 2 = octave + 2 := by omega
      have hrest : (16 + octave * 4 + sub - 16) % 4 = sub := by omega
      simp only [edgeBits, hbucket, if_neg (show ¬16 + octave * 4 + sub < 16 by omega), hexponent,
        hrest, Nat.shiftLeft_eq]
    have hpow : 2 ^ (octave + 2) ≤ 2 ^ 60 := Nat.pow_le_pow_right (by decide) (by omega)
    have hquarter := Nat.div_mul_le_self sample (2 ^ (octave + 2))
    have hnext := Nat.lt_div_mul_add (a := sample) (Nat.two_pow_pos (octave + 2))
    rw [hquarters] at hquarter hnext
    rw [hedge]
    generalize 2 ^ (octave + 2) = quarter at *
    interval_cases sub <;> omega

end Buckets

/-! ### Quantiles -/

section Quantiles
variable {samples : List Nat} {target : Nat}

def generation (samples : List Nat) : Nat → Nat := samples.foldl recordSample fun _ => 0

def below (samples : List Nat) (bucket : Nat) : Nat := samples.countP fun sample => bucketOf sample < bucket

theorem foldl_recordSample (samples : List Nat) (counts : Nat → Nat) (bucket : Nat) :
    samples.foldl recordSample counts bucket = counts bucket + samples.countP fun sample =>
    bucketOf sample = bucket := by
  induction samples generalizing counts with
  | nil => simp
  | cons sample samples ih =>
    rw [foldl_cons, ih, countP_cons, recordSample, Function.update_apply]
    by_cases hbucket : bucketOf sample = bucket
    · simp [hbucket]
      omega
    · simp [hbucket, Ne.symm hbucket]

theorem below_succ (samples : List Nat) (bucket : Nat) :
    below samples (bucket + 1) = below samples bucket + generation samples bucket := by
  rw [generation, foldl_recordSample, Nat.zero_add]
  unfold below
  induction samples with
  | nil => rfl
  | cons sample samples ih =>
    simp only [countP_cons, ih, decide_eq_true_eq]
    split_ifs <;> omega

theorem sum_generation (samples : List Nat) (buckets : Nat) :
    ((range buckets).map (generation samples)).sum = below samples buckets := by
  induction buckets with
  | zero => simp [below]
  | succ buckets ih => simp [range_succ, ih, below_succ]

theorem quantileLoop_lands (bucket buckets : Nat) (hbefore : below samples bucket < target)
    (hafter : target ≤ below samples (bucket + buckets)) :
    ∃ found,
      quantileLoop (generation samples) target (range' bucket buckets) (below samples bucket) =
        some (bucketUpperUs found) ∧ below samples found < target ∧ target ≤ below samples (found + 1) := by
  induction buckets generalizing bucket with
  | zero => exact absurd hafter (Nat.not_le.mpr hbefore)
  | succ buckets ih =>
    rw [range'_succ, quantileLoop, ← below_succ]
    split_ifs with hreached
    · exact ⟨bucket, rfl, hbefore, hreached⟩
    · exact ih (bucket + 1) (by omega) (by rwa [Nat.add_right_comm])

theorem exists_of_countP_lt {p q : Nat → Bool} (h : samples.countP p < samples.countP q) :
    ∃ x ∈ samples, q x = true ∧ p x = false := by
  by_contra hnone
  refine absurd (countP_mono_left fun x hx hq => ?_) (Nat.not_le.mpr h)
  by_contra hp
  exact hnone ⟨x, hx, hq, Bool.eq_false_iff.mpr hp⟩

/-- The sample of a rank: as many samples are at or below it as the rank says, and fewer are below it. -/
def HasRank (samples : List Nat) (target sample : Nat) : Prop :=
  sample ∈ samples ∧ (samples.countP fun other => other < sample) < target ∧ target ≤ samples.countP
    fun other => other ≤ sample

theorem exists_hasRank {limit : Nat} (hsmall : ∀ sample ∈ samples, sample < limit) (hpos : 0 < target)
    (hle : target ≤ samples.length) : ∃ sample, HasRank samples target sample := by
  have hsome : ∃ edge, target ≤ samples.countP fun other => other < edge := by
    refine ⟨limit, ?_⟩
    rwa [countP_eq_length.mpr fun other hother => decide_eq_true (hsmall other hother)]
  obtain ⟨sample, hsample⟩ : ∃ sample, Nat.find hsome = sample + 1 := by
    refine Nat.exists_eq_succ_of_ne_zero fun hzero => ?_
    have hfound := Nat.find_spec hsome
    rw [hzero] at hfound
    simp at hfound
    omega
  have hatMost : target ≤ samples.countP fun other => other ≤ sample := by
    simpa only [hsample, Nat.lt_succ_iff] using Nat.find_spec hsome
  have hfewer : (samples.countP fun other => other < sample) < target :=
    Nat.not_le.mp (Nat.find_min hsome (by omega))
  obtain ⟨x, hx, hxle, hxnot⟩ := exists_of_countP_lt (hfewer.trans_le hatMost)
  obtain rfl : x = sample := by
    simp only [decide_eq_true_eq, decide_eq_false_iff_not] at hxle hxnot
    omega
  exact ⟨x, hx, hfewer, hatMost⟩

theorem bucketOf_hasRank {sample found : Nat} (hsmall : ∀ sample ∈ samples, sample < 2 ^ 63)
    (h : HasRank samples target sample)
    (hbefore : below samples found < target) (hafter : target ≤ below samples (found + 1)) :
    bucketOf sample = found := by
  obtain ⟨hmem, hfewer, hatMost⟩ := h
  obtain ⟨low, hlow, hlowLe, hlowNot⟩ := exists_of_countP_lt (hbefore.trans_le hatMost)
  obtain ⟨high, hhigh, hhighLe, hhighNot⟩ := exists_of_countP_lt (hfewer.trans_le hafter)
  simp only [decide_eq_true_eq, decide_eq_false_iff_not] at hlowLe hlowNot hhighLe hhighNot
  have := bucketOf_mono (hsmall sample hmem) hlowLe
  have := bucketOf_mono (hsmall high hhigh) (Nat.not_lt.mp hhighNot)
  omega

theorem quantileOf_reports {target : Nat → Nat} (hsmall : ∀ sample ∈ samples, sample < 2 ^ 63)
    (hpos : 0 < target samples.length) (hle : target samples.length ≤ samples.length) :
    ∃ sample, HasRank samples (target samples.length) sample ∧
      quantileOf (generation samples) target = some (bucketUpperUs (bucketOf sample)) := by
  have hall : below samples serviceBuckets = samples.length := by
    refine countP_eq_length.mpr fun sample hsample => decide_eq_true ?_
    have := bucketOf_lt_last (hsmall sample hsample)
    omega
  obtain ⟨sample, hsample⟩ := exists_hasRank hsmall hpos hle
  obtain ⟨found, hfound, hbefore, hafter⟩ := quantileLoop_lands 0 serviceBuckets (by simpa [below] using hpos)
    (show target samples.length ≤ below samples (0 + serviceBuckets) by rwa [Nat.zero_add, hall])
  refine ⟨sample, hsample, ?_⟩
  rw [bucketOf_hasRank hsmall hsample hbefore hafter, quantileOf, sum_generation, hall, if_neg (by omega),
    ← hfound, range_eq_range']
  simp [below]

end Quantiles

/-- Samples a process can measure lie in buckets that bound them, so a quantile bounds the sample of its rank. -/
theorem latency_buckets_bound_samples :
    (∀ sample < 2 ^ 63, bucketOf sample < serviceBuckets - 1 ∧ edgeBits (bucketOf sample) < 2 ^ 64 ∧
      sample ≤ bucketUpperUs (bucketOf sample) ∧ 4 * bucketUpperUs (bucketOf sample) ≤ 5 * sample) ∧
    (∀ sample other, sample ≤ other → other < 2 ^ 63 → bucketOf sample ≤ bucketOf other) ∧
    ∀ (samples : List Nat) (target : Nat → Nat), (∀ sample ∈ samples, sample < 2 ^ 63) →
      0 < target samples.length → target samples.length ≤ samples.length →
        ∃ sample edge, HasRank samples (target samples.length) sample ∧ quantileOf
        (generation samples) target = some edge ∧ sample ≤ edge ∧ 4 * edge ≤ 5 * sample := by
  have hbounds (sample : Nat) (h : sample < 2 ^ 63) :
      sample ≤ bucketUpperUs (bucketOf sample) ∧ 4 * bucketUpperUs (bucketOf sample) ≤ 5 * sample := by
    obtain ⟨hle, hquarter, hfits⟩ := edgeBits_bounds h
    rw [bucketUpperUs, Nat.mod_eq_of_lt hfits]
    exact ⟨hle, hquarter⟩
  refine ⟨fun sample h => ⟨bucketOf_lt_last h, (edgeBits_bounds h).2.2, hbounds sample h⟩, fun sample other hle h =>
    bucketOf_mono h hle, ?_⟩
  intro samples target hsmall hpos hle
  obtain ⟨sample, hsample, hquantile⟩ := quantileOf_reports hsmall hpos hle
  exact ⟨sample, _, hsample, hquantile, hbounds sample (hsmall sample hsample.1)⟩

/-- The median of three samples is at most the edge that is reported for it, and not far below. -/
theorem latency_buckets_bound_median :
    ∃ sample edge, HasRank [900, 3, 70] 2 sample ∧ quantileOf (generation [900, 3, 70])
    (fun total => (total + 1) / 2) = some edge ∧ sample ≤ edge ∧ 4 * edge ≤ 5 * sample :=
  latency_buckets_bound_samples.2.2 [900, 3, 70] (fun total => (total + 1) / 2) (by decide) (by decide) (by decide)

end CameoDb
