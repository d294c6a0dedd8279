import CameoDb.Lib.Lexicographic
import CameoDb.Storage.PrefixQuery
import Mathlib.Data.String.Basic

/-! # Prefix clauses: what the range holds

Scalars behind the prefix's last one are stepped over, and a longer term that goes on from there is in the range. -/

namespace CameoDb

variable {analyzer : Analyzer} {head : List Char} {c last : Char} {lower upper : String}

/-- The analyzer keeps the text with `c` at its end as it is. -/
def Unchanged (analyzer : Analyzer) (head : List Char) (c : Char) : Prop :=
  singleToken analyzer (String.ofList (head ++ [c])) = some (String.ofList (head ++ [c]))

/-- A scalar above the last one of the prefix, with none up to it that the analyzer keeps. -/
def SteppedOver (analyzer : Analyzer) (head : List Char) (last c : Char) : Prop :=
  last < c ∧ ∀ d, last < d → d ≤ c → ¬ Unchanged analyzer head d

theorem charFromU32_eq_some {code : Nat} (h : charFromU32 code = some c) : c.toNat = code := by
  unfold charFromU32 at h
  split at h
  · next hvalid =>
    cases h
    rw [Char.ofNat, dif_pos hvalid]
    rfl
  · cases h

theorem Char.lt_iff_toNat_lt {a b : Char} : a < b ↔ a.toNat < b.toNat := Iff.rfl

theorem upperCandidate_spec {tries code : Nat} (h : upperCandidate analyzer head tries code = some upper) :
    ∃ u : Char, upper = String.ofList (head ++ [u]) ∧ code < u.toNat ∧ Unchanged analyzer head u ∧
      ∀ d : Char, code < d.toNat → d < u → ¬ Unchanged analyzer head d := by
  induction tries generalizing code with
  | zero => cases h
  | succ tries ih =>
    unfold upperCandidate at h
    dsimp only at h
    split at h
    · cases h
    · next c hc =>
      have hnext := charFromU32_eq_some hc
      -- No scalar lies between a code and the next.
      have hleast (d : Char) (hd : code < d.toNat) : c.toNat ≤ d.toNat := by
        have hvalid := d.valid
        have hval : d.toNat = d.val.toNat := rfl
        simp only [UInt32.isValidChar, Nat.isValidChar] at hvalid
        rw [hnext]
        split <;> omega
      have habove : code < c.toNat := by
        rw [hnext]
        split <;> omega
      split at h
      · next hkept =>
        cases h
        refine ⟨c, rfl, habove, hkept, fun d hd hlt => ?_⟩
        have := hleast d hd
        rw [Char.lt_iff_toNat_lt] at hlt
        omega
      · next hchanged =>
        rw [← hnext] at h
        obtain ⟨u, rfl, hlt, hkept, hbetween⟩ := ih h
        refine ⟨u, rfl, habove.trans hlt, hkept, fun d hd hdu => ?_⟩
        rcases Nat.eq_or_lt_of_le (hleast d hd) with heq | hgt
        · obtain rfl : c = d := Char.toNat_inj.mp heq
          exact hchanged
        · exact hbetween d hgt hdu

theorem prefixUpperBound_spec (h : prefixUpperBound analyzer lower = some upper) :
    ∃ head last u, lower = String.ofList (head ++ [last]) ∧ upper = String.ofList (head ++ [u]) ∧ last < u ∧
      Unchanged analyzer head u ∧ ∀ d, last < d → d < u → ¬ Unchanged analyzer head d := by
  unfold prefixUpperBound at h
  split at h
  · cases h
  · next last hlast =>
    obtain ⟨u, rfl, hlt, hkept, hbetween⟩ := upperCandidate_spec h
    refine ⟨lower.toList.dropLast, last, u, ?_, rfl, hlt, hkept, hbetween⟩
    rw [List.dropLast_append_getLast? last hlast, String.ofList_toList]

/-- Whatever the analyzer and the terms an index holds: the range of a prefix is those that begin with it, where
    none of them begins with the head of the prefix and a scalar stepped over. -/
theorem prefixUpperBound_exact_iff (indexed : Set String) (h : prefixUpperBound analyzer lower = some upper) :
    (∀ term ∈ indexed, lower.toList ≤ term.toList ∧ term.toList < upper.toList ↔ startsWith term lower = true) ↔
      ∀ head last, lower = String.ofList (head ++ [last]) → ∀ c, SteppedOver analyzer head last c →
        ∀ term ∈ indexed, ¬ head ++ [c] <+: term.toList := by
  obtain ⟨head, last, u, rfl, rfl, hlt, hkept, hbetween⟩ := prefixUpperBound_spec h
  simp only [startsWith_iff, String.toList_ofList, between_last_iff]
  have hstepped (c : Char) : SteppedOver analyzer head last c ↔ last < c ∧ c < u := by
    constructor
    · rintro ⟨hc, hnone⟩
      exact ⟨hc, lt_of_not_ge fun hge => hnone u hlt hge hkept⟩
    · rintro ⟨hc, hcu⟩
      exact ⟨hc, fun d hd hdc => hbetween d hd (hdc.trans_lt hcu)⟩
  constructor
  · intro hexact head' last' heq c hc term hterm hstarts
    obtain ⟨rfl, rfl⟩ : head = head' ∧ last = last' := by simpa using String.ofList_injective heq
    obtain ⟨hlast, hcu⟩ := (hstepped c).mp hc
    have hstart := (hexact term hterm).mp ⟨c, hlast.le, hcu, hstarts⟩
    -- A term that begins with the head goes on with one scalar only.
    have hsame := List.prefix_of_prefix_length_le hstarts hstart (by simp)
    have := List.append_cancel_left (hsame.eq_of_length (by simp))
    simp only [List.cons.injEq, and_true] at this
    exact lt_irrefl _ (this ▸ hlast)
  · intro hnone term hterm
    constructor
    · rintro ⟨c, hle, hcu, hstarts⟩
      rcases hle.eq_or_lt with rfl | hgt
      · exact hstarts
      · exact absurd hstarts (hnone head last rfl c ((hstepped c).mpr ⟨hgt, hcu⟩) term hterm)
    · exact fun hstarts => ⟨last, le_rfl, hlt, hstarts⟩

/-- An analyzer that takes every text as it is steps over no scalar, so the range is exact for every term. -/
theorem prefixUpperBound_exact_raw : prefixUpperBound (fun text => [text]) "abc" = some "abd" ∧
    ∀ term ∈ (Set.univ : Set String), "abc".toList ≤ term.toList ∧ term.toList < "abd".toList ↔
    startsWith term "abc" = true := by
  have hbound : prefixUpperBound (fun text => [text]) "abc" = some "abd" := by decide
  refine ⟨hbound, (prefixUpperBound_exact_iff Set.univ hbound).mpr ?_⟩
  rintro head last - c ⟨hlt, hnone⟩
  exact absurd rfl (hnone c hlt le_rfl)

/-- The English stemmer on the words below: `boos` loses its ending, and the others keep theirs. -/
def stemmed : Analyzer := fun text => [if text = "boos" then "boo" else text]

/-- A search for `boor*` finds `boost`. -/
theorem prefixRewrite_admits : prefixRewrite stemmed 0 "boor" = .range "boor" "boot" ∧ stemmed "boost" = ["boost"] ∧
    "boor".toList ≤ "boost".toList ∧ "boost".toList < "boot".toList ∧ startsWith "boost" "boor" = false := by
  decide

end CameoDb
