import CameoDb.Storage.Matched
import Mathlib.Algebra.Order.BigOperators.Group.List
import Mathlib.Algebra.Order.Ring.Nat
import Mathlib.Data.List.Infix
import Mathlib.Data.Nat.Find

/-! # Phrases with slop

A first choice that leads nowhere is not taken back, so a phrase can be missed; not with slop zero, nor where the
terms are one word over and over and then another. -/

namespace CameoDb
open List Function

/-! ### The specification -/

/-- The next word stands no further on than the slop allows. -/
def InReach (slop : Nat) (a b : Token) : Prop := a.1 < b.1 ∧ b.1 ≤ a.1 + (slop + 1)

/-- Words of the text that match the phrase, place by place. -/
structure PhraseIn (found : List Token) (terms : List String) (slop : Nat) (lastPrefix : Bool)
    (chosen : Nat → Token) : Prop where
  mem : ∀ place < terms.length, chosen place ∈ found
  term : ∀ (place : Nat) (term : String), terms[place]? = some term → (chosen place).2 = term ∨
    lastPrefix = true ∧ place + 1 = terms.length ∧ term.toList <+: (chosen place).2.toList
  near : ∀ place, place + 1 < terms.length → InReach slop (chosen place) (chosen (place + 1))

/-- Each word is the first match after the one before. -/
def Earliest (found : List Token) (terms : List String) (lastPrefix : Bool) (chosen : Nat → Token) : Prop :=
  ∀ place, place + 1 < terms.length → ∀ u ∈ found, (chosen place).1 < u.1 → u.1 < (chosen (place + 1)).1 →
    isTerm terms lastPrefix (place + 1) u.2 = false

variable {terms : List String} {lastPrefix : Bool} {place : Nat}

theorem isTerm_iff {term text : String} (h : terms[place]? = some term) :
    isTerm terms lastPrefix place text = true ↔
      text = term ∨ lastPrefix = true ∧ place + 1 = terms.length ∧ term.toList <+: text.toList := by
  have hlt : place < terms.length := (List.getElem?_eq_some_iff.mp h).1
  unfold isTerm
  rw [h]
  dsimp only
  split
  · next hlast =>
    simp only [Bool.and_eq_true, decide_eq_true_eq] at hlast
    rw [startsWith_iff]
    constructor
    · exact fun hstarts => .inr ⟨hlast.1, by omega, hstarts⟩
    · rintro (rfl | ⟨-, -, hstarts⟩)
      · exact prefix_rfl
      · exact hstarts
  · next hlast =>
    simp only [Bool.and_eq_true, decide_eq_true_eq] at hlast ⊢
    constructor
    · exact .inl
    · rintro (heq | ⟨hflag, hplace, -⟩)
      · exact heq
      · exact absurd ⟨hflag, by omega⟩ hlast

/-- Before the last place a term is met by the word itself. -/
theorem isTerm_eq {text : String} (h : place + 1 < terms.length) :
    isTerm terms lastPrefix place text = true ↔ terms[place]? = some text := by
  have hget : terms[place]? = some terms[place] := getElem?_eq_getElem (by omega)
  rw [isTerm_iff hget, hget]
  constructor
  · rintro (rfl | ⟨-, hlast, -⟩)
    · rfl
    · omega
  · intro heq
    exact .inl (Option.some.inj heq).symm

/-! ### The scan -/

section Scan
variable {test : Token → Bool} {tokens rest : List Token} {token : Token}

theorem firstFrom_spec (h : firstFrom test tokens = some (token, rest)) :
    test token = true ∧ ∃ before, tokens = before ++ token :: rest ∧ ∀ u ∈ before, test u = false := by
  induction tokens with
  | nil => cases h
  | cons first others ih =>
    rw [firstFrom] at h
    split_ifs at h with hfirst
    · cases h
      exact ⟨hfirst, [], rfl, nofun⟩
    · obtain ⟨htoken, before, rfl, hbefore⟩ := ih h
      exact ⟨htoken, first :: before, rfl, forall_mem_cons.mpr ⟨Bool.eq_false_iff.mpr hfirst, hbefore⟩⟩

theorem firstFrom_none (h : firstFrom test tokens = none) : ∀ u ∈ tokens, test u = false := by
  induction tokens with
  | nil => exact nofun
  | cons first others ih =>
    rw [firstFrom] at h
    split_ifs at h with hfirst
    exact forall_mem_cons.mpr ⟨Bool.eq_false_iff.mpr hfirst, ih h⟩

/-- What is left of the words, all after `position` among it. -/
structure LeftOver (found : List Token) (position : Nat) (rest : List Token) : Prop where
  sorted : rest.Pairwise fun a b => a.1 ≤ b.1
  mem_found : ∀ u ∈ rest, u ∈ found
  later : ∀ u ∈ found, position < u.1 → u ∈ rest

theorem LeftOver.tail {found before : List Token} {position : Nat}
    (h : LeftOver found position (before ++ token :: rest))
    (hle : position ≤ token.1) : LeftOver found token.1 rest := by
  obtain ⟨-, htail, hacross⟩ := pairwise_append.mp h.sorted
  refine ⟨(pairwise_cons.mp htail).2, fun u hu => h.mem_found u (by simp [hu]), fun u hu hlt => ?_⟩
  rcases mem_append.mp (h.later u hu (by omega)) with hin | hin
  · have hle := hacross u hin token mem_cons_self
    omega
  · rcases mem_cons.mp hin with rfl | hin
    · omega
    · exact hin

/-- What the scan takes is the first of all tokens that pass. -/
theorem LeftOver.first {found after : List Token} {position : Nat} (h : LeftOver found position rest)
    (hpast : ∀ u, test u = true → position < u.1) (hfirst : firstFrom test rest = some (token, after)) :
    token ∈ found ∧ test token = true ∧ LeftOver found token.1 after ∧ ∀ u ∈ found, test u = true → token.1 ≤ u.1 := by
  obtain ⟨htoken, before, rfl, hbefore⟩ := firstFrom_spec hfirst
  refine ⟨h.mem_found token (by simp), htoken, h.tail (hpast token htoken).le, fun u hu htest => ?_⟩
  rcases mem_append.mp (h.later u hu (hpast u htest)) with hin | hin
  · rw [hbefore u hin] at htest
    cases htest
  · rcases mem_cons.mp hin with rfl | hin
    · exact le_rfl
    · exact (pairwise_cons.mp (pairwise_append.mp h.sorted).2.1).1 u hin

end Scan

section Choice
variable {found rest : List Token} {terms : List String} {slop : Nat} {lastPrefix : Bool}
  {place count : Nat} {token u : Token}
  {chosen : Nat → Token}

theorem inReach_test : (token.1 < u.1 && u.1 ≤ token.1 + 1 + slop && isTerm terms lastPrefix place u.2) = true ↔
    InReach slop token u ∧ isTerm terms lastPrefix place u.2 = true := by
  simp only [Bool.and_eq_true, decide_eq_true_eq, InReach, Nat.add_assoc, Nat.add_comm 1]

theorem followedBy_sound (hleft : LeftOver found token.1 rest)
    (h : followedBy terms slop lastPrefix token.1 rest (range' (place + 1) count) = true) :
    ∃ chosen : Nat → Token, chosen place = token ∧ ∀ i, place ≤ i → i < place + count →
      chosen (i + 1) ∈ found ∧ isTerm terms lastPrefix (i + 1) (chosen (i + 1)).2 = true ∧ InReach slop
      (chosen i) (chosen (i + 1)) ∧
        ∀ u ∈ found, (chosen i).1 < u.1 → u.1 < (chosen (i + 1)).1 → isTerm terms lastPrefix (i + 1) u.2 = false := by
  induction count generalizing place token rest with
  | zero => exact ⟨fun _ => token, rfl, fun i hle hlt => by omega⟩
  | succ count ih =>
    rw [range'_succ, followedBy] at h
    split at h
    · cases h
    · next first after hfirst =>
      obtain ⟨hmem, htest, hafter, hleast⟩ := hleft.first (fun u hu => (inReach_test.mp hu).1.1) hfirst
      obtain ⟨hreach, hterm⟩ := inReach_test.mp htest
      obtain ⟨chosen, hchosen, hsteps⟩ := ih hafter h
      refine ⟨update chosen place token, update_self .., fun i hle hlt => ?_⟩
      rw [update_of_ne (show i + 1 ≠ place by omega)]
      rcases Nat.eq_or_lt_of_le hle with rfl | hgt
      · rw [update_self, hchosen]
        refine ⟨hmem, hterm, hreach, fun u hu hpast hshort => Bool.eq_false_iff.mpr fun hu' => ?_⟩
        have := hleast u hu (inReach_test.mpr ⟨⟨hpast, hshort.le.trans hreach.2⟩, hu'⟩)
        omega
      · rw [update_of_ne (show i ≠ place by omega)]
        exact hsteps i hgt (by omega)

theorem PhraseIn.of_isTerm (hplace : ∀ place < terms.length, chosen place ∈ found ∧ isTerm terms lastPrefix place
    (chosen place).2 = true)
    (hnear : ∀ place, place + 1 < terms.length → InReach slop (chosen place) (chosen (place + 1))) :
    PhraseIn found terms slop lastPrefix chosen :=
  ⟨fun place hlt => (hplace place hlt).1,
    fun place _ hget => (isTerm_iff hget).mp (hplace place (List.getElem?_eq_some_iff.mp hget).1).2, hnear⟩

variable (h : PhraseIn found terms slop lastPrefix chosen)
include h

theorem PhraseIn.isTerm (hplace : place < terms.length) : isTerm terms lastPrefix place (chosen place).2 = true := by
  have hget : terms[place]? = some terms[place] := getElem?_eq_getElem hplace
  exact (isTerm_iff hget).mpr (h.term place _ hget)

theorem PhraseIn.followedBy_earliest (hearliest : Earliest found terms lastPrefix chosen)
    (hcount : place + count + 1 = terms.length) (hleft : LeftOver found (chosen place).1 rest) :
    followedBy terms slop lastPrefix (chosen place).1 rest (range' (place + 1) count) = true := by
  induction count generalizing place rest with
  | zero => rfl
  | succ count ih =>
    have hmem := h.mem (place + 1) (by omega)
    have hnear := h.near place (by omega)
    have hnext := inReach_test.mpr ⟨hnear, h.isTerm (show place + 1 < terms.length by omega)⟩
    rw [range'_succ, followedBy]
    split
    · next hnone => exact absurd hnext (Bool.eq_false_iff.mp (firstFrom_none hnone _ (hleft.later _ hmem hnear.1)))
    · next first after hfirst =>
      obtain ⟨hmem', htest, hafter, hleast⟩ := hleft.first (fun u hu => (inReach_test.mp hu).1.1) hfirst
      obtain ⟨hreach, hterm⟩ := inReach_test.mp htest
      have hsame : first.1 = (chosen (place + 1)).1 := by
        have hle := hleast _ hmem hnext
        by_contra hne
        rw [hearliest place (by omega) first hmem' hreach.1 (by omega)] at hterm
        cases hterm
      rw [hsame] at hafter ⊢
      exact ih (by omega) hafter

end Choice

/-! ### Nothing is missed -/

section Complete
variable {found : List Token} {terms : List String} {slop : Nat} {lastPrefix : Bool} {chosen : Nat → Token}
  {place : Nat} {u : Token}

/-- Past `start`, a word of one place also matches the next. -/
def Covers (terms : List String) (lastPrefix : Bool) (start : Nat) : Prop :=
  ∀ place, start < place → place + 1 < terms.length → ∀ text, isTerm terms lastPrefix place text = true →
    isTerm terms lastPrefix (place + 1) text = true

section Exchange
variable (h : PhraseIn found terms slop lastPrefix chosen) (hplace : place + 1 < terms.length) (hu : u ∈ found)
  (hpast : (chosen place).1 < u.1) (hshort : u.1 < (chosen (place + 1)).1)
      (hterm : CameoDb.isTerm terms lastPrefix (place + 1) u.2 = true)
include h hplace hu hpast hshort hterm

/-- A token between two chosen ones is put in, and every later place gets the token of the place before. -/
theorem PhraseIn.shift_later (hcovers : Covers terms lastPrefix place) : PhraseIn found terms slop lastPrefix
    fun i => if i ≤ place then chosen i else if i = place + 1 then u else chosen (i - 1) := by
  have hnear := h.near place hplace
  refine .of_isTerm (fun i hi => ?_) fun i hi => ?_
  · split_ifs with hle heq
    · exact ⟨h.mem i hi, h.isTerm hi⟩
    · subst heq
      exact ⟨hu, hterm⟩
    · obtain ⟨j, rfl⟩ : ∃ j, i = j + 1 := ⟨i - 1, by omega⟩
      exact ⟨h.mem _ (by omega), hcovers j (by omega) hi _ (h.isTerm (by omega))⟩
  · rcases Nat.lt_trichotomy i place with hlt | rfl | hgt
    · rw [if_pos hlt.le, if_pos (Nat.succ_le_of_lt hlt)]
      exact h.near i hi
    · rw [if_pos le_rfl, if_neg (by omega), if_pos rfl]
      exact ⟨hpast, hshort.le.trans hnear.2⟩
    · rw [if_neg (by omega), if_neg (show ¬ i + 1 ≤ place by omega),
        if_neg (show i + 1 ≠ place + 1 by omega), Nat.add_sub_cancel]
      split_ifs with heq
      · rw [heq]
        exact ⟨hshort, by have := hnear.2; omega⟩
      · obtain ⟨j, rfl⟩ : ∃ j, i = j + 1 := ⟨i - 1, by omega⟩
        exact h.near j (by omega)

/-- A token of a word that has been repeated is put in, and every earlier place gets the token of the place after. -/
theorem PhraseIn.shift_earlier (hsame : ∀ i ≤ place + 1, terms[i]? = terms[0]?) (hlast : place + 2 < terms.length) :
    PhraseIn found terms slop lastPrefix fun i => if i < place then chosen (i + 1) else if i = place then
    u else chosen i := by
  have hnear := h.near place hplace
  have hword {i : Nat} {text : String} (hi : i ≤ place) (htext : CameoDb.isTerm terms lastPrefix (i + 1) text = true) :
      CameoDb.isTerm terms lastPrefix i text = true := by
    rw [isTerm_eq (by omega)] at htext ⊢
    rw [hsame i (by omega), ← hsame (i + 1) (by omega), htext]
  refine .of_isTerm (fun i hi => ?_) fun i hi => ?_
  · split_ifs with hlt heq
    · exact ⟨h.mem _ (by omega), hword hlt.le (h.isTerm (by omega))⟩
    · subst heq
      exact ⟨hu, hword le_rfl hterm⟩
    · exact ⟨h.mem i hi, h.isTerm hi⟩
  · rcases Nat.lt_trichotomy i place with hlt | rfl | hgt
    · rw [if_pos hlt]
      split_ifs with hlt' heq
      · exact h.near (i + 1) (by omega)
      · rw [heq]
        exact ⟨hpast, hshort.le.trans hnear.2⟩
      · omega
    · rw [if_neg (lt_irrefl _), if_pos rfl, if_neg (by omega), if_neg (by omega)]
      exact ⟨hshort, by have := hnear.2; omega⟩
    · rw [if_neg (by omega), if_neg (by omega), if_neg (by omega), if_neg (by omega)]
      exact h.near i hi

end Exchange

theorem PhraseIn.mono {i j : Nat} (h : PhraseIn found terms slop lastPrefix chosen) (hle : i ≤ j)
    (hj : j < terms.length) : (chosen i).1 ≤ (chosen j).1 := by
  induction j, hle using Nat.le_induction with
  | base => exact le_rfl
  | succ j _ ih => exact (ih (by omega)).trans (h.near j hj).1.le

/-- One word over and over, then words that each match the next. -/
def OneThenAnother (terms : List String) (lastPrefix : Bool) : Prop :=
  ∀ place, 1 ≤ place → place + 1 < terms.length →
    (∀ term, terms[place]? = some term → CameoDb.isTerm terms lastPrefix (place + 1) term = true) ∨
      ∀ i ≤ place, terms[i]? = terms[0]?

/-- The last place of the first word: from there on a token that is one term is the next one too. -/
theorem OneThenAnother.exists_last (h : OneThenAnother terms lastPrefix) (hlength : 1 < terms.length) :
    ∃ last, last + 1 < terms.length ∧ (∀ place ≤ last, terms[place]? = terms[0]?) ∧ Covers terms lastPrefix last := by
  classical
  refine ⟨Nat.findGreatest (fun last => ∀ place ≤ last, terms[place]? = terms[0]?) (terms.length - 2), ?_, ?_, ?_⟩
  · have := Nat.findGreatest_le (P := fun last => ∀ place ≤ last, terms[place]? = terms[0]?) (terms.length - 2)
    omega
  · refine Nat.findGreatest_spec (P := fun last => ∀ place ≤ last, terms[place]? = terms[0]?)
      (Nat.zero_le _) fun place hle => ?_
    rw [Nat.le_zero.mp hle]
  · intro place hgt hplace text htext
    rw [isTerm_eq hplace] at htext
    rcases h place (by omega) hplace with hnext | hsame
    · exact hnext text htext
    · exact absurd hsame (Nat.findGreatest_is_greatest hgt (by omega))

/-- How far the places before `last` stand in front of it, and how far on the others are. -/
def spread (terms : List String) (last : Nat) (chosen : Nat → Token) : Nat :=
  ((range terms.length).map fun i => if i < last then (chosen last).1 - (chosen i).1 else (chosen i).1).sum

theorem OneThenAnother.exists_earliest (hcond : OneThenAnother terms lastPrefix)
    (h : PhraseIn found terms slop lastPrefix chosen) :
    ∃ chosen, PhraseIn found terms slop lastPrefix chosen ∧ Earliest found terms lastPrefix chosen := by
  rcases Nat.lt_or_ge 1 terms.length with hmany | hone
  · obtain ⟨last, hlast, hsame, hcovers⟩ := hcond.exists_last hmany
    -- Putting a token in narrows the spread around the token of `last`, which stays.
    induction hspread : spread terms last chosen using Nat.strong_induction_on generalizing chosen with
    | _ n ih =>
      subst hspread
      by_cases hearliest : Earliest found terms lastPrefix chosen
      · exact ⟨chosen, h, hearliest⟩
      · unfold Earliest at hearliest
        push Not at hearliest
        obtain ⟨place, hplace, u, hu, hpast, hshort, hterm⟩ := hearliest
        replace hterm := eq_true_of_ne_false hterm
        rcases Nat.lt_or_ge place last with hlt | hge
        · have hafter := h.mono (show place + 1 ≤ last by omega) (by omega)
          refine ih _ (sum_lt_sum _ _ (fun i hi => ?_) ⟨place, mem_range.mpr (by omega), ?_⟩)
            (h.shift_earlier hplace hu hpast hshort hterm (fun i hi => hsame i (by omega)) (by omega)) rfl
          · have hi := mem_range.mp hi
            have := h.mono (show i ≤ i + 1 by omega)
            dsimp only
            split_ifs <;> subst_vars <;> omega
          · simp [hlt, show ¬ last < place by omega, show last ≠ place by omega]
            omega
        · refine ih _ (sum_lt_sum _ _ (fun i hi => ?_) ⟨place + 1, mem_range.mpr hplace, ?_⟩)
            (h.shift_later hplace hu hpast hshort hterm fun i hi => hcovers i (by omega)) rfl
          · have hi := mem_range.mp hi
            have := h.mono (Nat.sub_le i 1) hi
            dsimp only
            split_ifs <;> subst_vars <;> omega
          · simp [show ¬ place + 1 < last by omega]
            omega
  · exact ⟨chosen, h, fun place hlt => by omega⟩

end Complete

/-! ### What the scan answers -/

section Answer
variable {found : List Token} {terms : List String} {slop : Nat} {lastPrefix : Bool} {chosen : Nat → Token}

theorem holdsPhrase_eq_true (hterms : terms ≠ []) :
    holdsPhrase found terms slop lastPrefix = some true ↔ ∃ before token rest, found = before ++ token :: rest ∧
      isTerm terms lastPrefix 0 token.2 = true ∧
        followedBy terms slop lastPrefix token.1 rest (range' 1 (terms.length - 1)) = true := by
  unfold holdsPhrase
  rw [if_neg hterms, Option.some_inj, any_eq_true]
  constructor
  · rintro ⟨suffix, hsuffix, htest⟩
    obtain ⟨before, rfl⟩ := (mem_tails ..).mp hsuffix
    cases suffix with
    | nil => cases htest
    | cons token rest => exact ⟨before, token, rest, rfl, by simpa using htest⟩
  · rintro ⟨before, token, rest, rfl, htest⟩
    exact ⟨token :: rest, (mem_tails ..).mpr (suffix_append ..), by simpa using htest⟩

/-- Looking for the first word before the phrase changes no answer. -/
theorem tokensMatch_eq_holdsPhrase (hterms : terms ≠ []) :
    tokensMatch found terms slop lastPrefix = holdsPhrase found terms slop lastPrefix := by
  have hany {test : Token → Bool} (hnone : found.any test = false)
      (htest : ∀ text place, isTerm terms lastPrefix 0 text = true → test (place, text) = true) :
      holdsPhrase found terms slop lastPrefix = some false := by
    cases hanswer : holdsPhrase found terms slop lastPrefix with
    | none =>
      unfold holdsPhrase at hanswer
      rw [if_neg hterms] at hanswer
      cases hanswer
    | some answer =>
      cases answer with
      | false => rfl
      | true =>
        obtain ⟨before, ⟨position, text⟩, rest, rfl, hfirst, -⟩ := (holdsPhrase_eq_true hterms).mp hanswer
        rw [any_eq_false] at hnone
        exact absurd (htest text position hfirst) (hnone (position, text) (by simp))
  match terms, hterms with
  | [term], _ =>
    cases hfound : found.any (fun token => if lastPrefix then startsWith token.2 term else token.2 = term) with
    | false =>
      rw [hany hfound fun text _ hfirst => by cases lastPrefix <;> simpa [isTerm] using hfirst]
      simp only [tokensMatch, hfound]
    | true =>
      obtain ⟨token, hmem, htest⟩ := any_eq_true.mp hfound
      obtain ⟨before, rest, hsplit⟩ := append_of_mem hmem
      have htrue : holdsPhrase found [term] slop lastPrefix = some true := (holdsPhrase_eq_true (by simp)).mpr
        ⟨before, token, rest, hsplit, by cases lastPrefix <;> simpa [isTerm] using htest, rfl⟩
      simp only [tokensMatch, hfound, htrue]
  | first :: second :: others, _ =>
    rw [tokensMatch.eq_3 found slop lastPrefix first (second :: others) (cons_ne_nil _ _)]
    split
    · rfl
    · next hnone =>
      refine (hany (Bool.eq_false_iff.mpr hnone) fun text _ hfirst => ?_).symm
      rw [isTerm_eq (by simp)] at hfirst
      simpa using hfirst.symm

theorem tokensMatch_eq_holdsPhrase_red : tokensMatch [(0, "big"), (1, "red")] ["red", "fox"] 1 false = some false :=
  (tokensMatch_eq_holdsPhrase (by simp)).trans (by decide)

/-- A phrase is found where, and only where, there is one that takes the first token of each term within reach. -/
theorem holdsPhrase_earliest (hterms : terms ≠ []) (hsorted : found.Pairwise fun a b => a.1 ≤ b.1) :
    holdsPhrase found terms slop lastPrefix = some true ↔
      ∃ chosen, PhraseIn found terms slop lastPrefix chosen ∧ Earliest found terms lastPrefix chosen := by
  have hlength := length_pos_iff.mpr hterms
  have hleft {before rest : List Token} {token : Token} (hsplit : found = before ++ token :: rest) : LeftOver
      found token.1 rest := by
    have hall : LeftOver found token.1 found := ⟨hsorted, fun _ => id, fun _ hu _ => hu⟩
    nth_rewrite 2 [hsplit] at hall
    exact hall.tail le_rfl
  rw [holdsPhrase_eq_true hterms]
  constructor
  · rintro ⟨before, token, rest, hsplit, hfirst, hfollow⟩
    obtain ⟨chosen, hzero, hsteps⟩ := followedBy_sound (hleft hsplit) hfollow
    refine ⟨chosen, .of_isTerm (fun place hlt => ?_) fun place hlt => ?_, fun place hlt => ?_⟩
    · cases place with
      | zero => exact ⟨by simp [hzero, hsplit], hzero ▸ hfirst⟩
      | succ place =>
        obtain ⟨hmem, hterm, -⟩ := hsteps place (Nat.zero_le _) (by omega)
        exact ⟨hmem, hterm⟩
    · exact (hsteps place (Nat.zero_le _) (by omega)).2.2.1
    · exact (hsteps place (Nat.zero_le _) (by omega)).2.2.2
  · rintro ⟨chosen, h, hearliest⟩
    obtain ⟨before, rest, hsplit⟩ := append_of_mem (h.mem 0 hlength)
    exact ⟨before, chosen 0, rest, hsplit, h.isTerm hlength, h.followedBy_earliest hearliest (by omega) (hleft hsplit)⟩

theorem PhraseIn.exists_earliest (h : PhraseIn found terms slop lastPrefix chosen)
    (hcond : slop = 0 ∨ OneThenAnother terms lastPrefix) :
    ∃ chosen, PhraseIn found terms slop lastPrefix chosen ∧ Earliest found terms lastPrefix chosen := by
  rcases hcond with rfl | hcond
  · refine ⟨chosen, h, fun place hplace u _ hpast hshort => ?_⟩
    have := (h.near place hplace).2
    omega
  · exact hcond.exists_earliest h

end Answer

/-! ### What is missed -/

section Missed
variable {terms : List String} {slop : Nat} {lastPrefix : Bool} {place : Nat}

/-- The words of a phrase in order with the one at `place` twice: first at once and then as far off as the slop
    allows, with the next word as far off again. -/
def strayToken (terms : List String) (slop place j : Nat) : Token :=
  if j ≤ place then (j, terms.getD j "")
  else (if j = place + 1 then place + slop else j + 2 * slop - 1, terms.getD (j - 1) "")

def strayTokens (terms : List String) (slop place : Nat) : List Token :=
  (range (terms.length + 1)).map (strayToken terms slop place)

theorem strayToken_lt (hslop : 0 < slop) {i j : Nat} (h : i < j) :
    (strayToken terms slop place i).1 < (strayToken terms slop place j).1 := by
  unfold strayToken
  split_ifs <;> dsimp only <;> omega

theorem strayTokens_sorted (hslop : 0 < slop) : (strayTokens terms slop place).Pairwise fun a b => a.1 ≤ b.1 := by
  refine pairwise_map.mpr (pairwise_lt_range.imp fun h => ?_)
  exact (strayToken_lt hslop h).le

theorem isTerm_getD (h : place < terms.length) : isTerm terms lastPrefix place (terms.getD place "") = true := by
  have hget : terms[place]? = some terms[place] := getElem?_eq_getElem h
  rw [isTerm_iff hget, getD_eq_getElem?_getD, hget]
  exact .inl rfl

theorem strayTokens_phraseIn (hslop : 0 < slop) (hplace : 1 ≤ place) :
    PhraseIn (strayTokens terms slop place) terms slop lastPrefix
      (fun i => strayToken terms slop place (if i < place then i else i + 1)) := by
  refine ⟨fun i hi => ?_, fun i term hget => ?_, fun i hi => ?_⟩
  · refine mem_map.mpr ⟨_, mem_range.mpr ?_, rfl⟩
    split_ifs <;> omega
  · have htext : (strayToken terms slop place (if i < place then i else i + 1)).2 = terms.getD i "" := by
      unfold strayToken
      split_ifs <;> first | rfl | omega
    rw [getD_eq_getElem?_getD, hget] at htext
    exact .inl htext
  · unfold InReach strayToken
    split_ifs <;> dsimp only <;> omega

/-- No choice of first tokens gets through: from the first word it comes to the word at `place` too early, and from
    the second it has a word too few to skip any. -/
theorem strayTokens_not_earliest (hslop : 0 < slop) (hplace : 1 ≤ place) (hlt : place + 1 < terms.length)
    (hnext : isTerm terms lastPrefix (place + 1) (terms.getD place "") = false)
    (hdiffer : ∃ i ≤ place, terms[i]? ≠ terms[0]?)
    {chosen : Nat → Token} (h : PhraseIn (strayTokens terms slop place) terms slop lastPrefix chosen)
    (hearliest : Earliest (strayTokens terms slop place) terms lastPrefix chosen) : False := by
  have hstray (i : Nat) : ∃ j, i < terms.length → j ≤ terms.length ∧ chosen i = strayToken terms slop place j := by
    by_cases hi : i < terms.length
    · obtain ⟨j, hj, heq⟩ := mem_map.mp (h.mem i hi)
      exact ⟨j, fun _ => ⟨by have := mem_range.mp hj; omega, heq.symm⟩⟩
    · exact ⟨0, fun hlt => absurd hlt hi⟩
  choose index hindex using hstray
  have hincreasing (i : Nat) (hi : i + 1 < terms.length) : index i < index (i + 1) := by
    have hnear := (h.near i hi).1
    rw [(hindex i (by omega)).2, (hindex (i + 1) hi).2] at hnear
    by_contra hge
    rcases Nat.eq_or_lt_of_le (Nat.le_of_not_lt hge) with heq | hgt
    · rw [heq] at hnear
      exact Nat.lt_irrefl _ hnear
    · have := @strayToken_lt terms slop place hslop _ _ hgt
      omega
  have hapart (i count : Nat) (hi : i + count < terms.length) : index i + count ≤ index (i + count) := by
    induction count with
    | zero => exact le_rfl
    | succ count ih =>
      have hstep : index (i + count) < index (i + (count + 1)) := hincreasing (i + count) hi
      have hbefore := ih (by omega)
      omega
  -- There is one token more than there are places, so each place has its own token or the one after.
  have hbounds (i : Nat) (hi : i < terms.length) : i ≤ index i ∧ index i ≤ i + 1 := by
    have hlow := hapart 0 i (by omega)
    have hhigh := hapart i (terms.length - 1 - i) (by omega)
    have hlast := (hindex (i + (terms.length - 1 - i)) (by omega)).1
    rw [Nat.zero_add] at hlow
    omega
  have hzero := hbounds 0 (by omega)
  rcases Nat.lt_or_ge 0 (index 0) with hone | hfirst
  · have hequal (i : Nat) (hi : i < place) : terms[i]? = terms[i + 1]? := by
      have hlow := hapart 0 i (by omega)
      have hhigh := hbounds i (by omega)
      rw [Nat.zero_add] at hlow
      have hterm := h.isTerm (show i < terms.length by omega)
      rw [(hindex i (by omega)).2, show index i = i + 1 by omega, strayToken, if_pos (by omega), isTerm_eq (by omega),
        getD_eq_getElem?_getD] at hterm
      rw [hterm, getElem?_eq_getElem (show i + 1 < terms.length by omega)]
      rfl
    have hall (i : Nat) (hi : i ≤ place) : terms[i]? = terms[0]? := by
      induction i with
      | zero => rfl
      | succ i ih => exact (hequal i (by omega)).symm.trans (ih (by omega))
    obtain ⟨i, hi, hne⟩ := hdiffer
    exact hne (hall i hi)
  · have hsame (i : Nat) (hi : i ≤ place) : index i = i := by
      induction i with
      | zero => omega
      | succ i ih =>
        have hhere := ih (by omega)
        have hthere := hbounds (i + 1) (by omega)
        by_contra hne
        have hskip := hearliest i (by omega) (strayToken terms slop place (i + 1))
          (mem_map.mpr ⟨i + 1, mem_range.mpr (by omega), rfl⟩)
        rw [(hindex i (by omega)).2, (hindex (i + 1) (by omega)).2, hhere] at hskip
        have hnot := hskip (strayToken_lt hslop (by omega)) (strayToken_lt hslop (by omega))
        rw [strayToken, if_pos (by omega), isTerm_getD (by omega)] at hnot
        cases hnot
    have hhere := hsame place le_rfl
    have hthere := hbounds (place + 1) hlt
    rcases Nat.eq_or_lt_of_le hthere.1 with heq | hgt
    · have hterm := h.isTerm hlt
      rw [(hindex (place + 1) hlt).2, ← heq, strayToken, if_neg (by omega), Nat.add_sub_cancel, hnext] at hterm
      cases hterm
    · have hnear := (h.near place hlt).2
      rw [(hindex place (by omega)).2, (hindex (place + 1) hlt).2, hhere,
        show index (place + 1) = place + 2 by omega] at hnear
      unfold strayToken at hnear
      rw [if_neg (by omega), if_pos le_rfl, if_neg (by omega)] at hnear
      dsimp only at hnear
      omega

/-- On one element, a phrase is found where there is one unless the scan's first choices lead it astray. Over all
    elements, what is searched for decides it: there is no slop, or it is one word over and over and then another. -/
theorem holdsPhrase_complete_iff (terms : List String) (slop : Nat) (lastPrefix : Bool) :
    (∀ found : List Token, found.Pairwise (fun a b => a.1 ≤ b.1) →
      ((∃ answer, holdsPhrase found terms slop lastPrefix = some answer ∧
          (answer = true ↔ ∃ chosen, PhraseIn found terms slop lastPrefix chosen)) ↔
        terms ≠ [] ∧ ((∃ chosen, PhraseIn found terms slop lastPrefix chosen) →
          ∃ chosen, PhraseIn found terms slop lastPrefix chosen ∧ Earliest found terms lastPrefix chosen))) ∧
    ((∀ found : List Token, found.Pairwise (fun a b => a.1 ≤ b.1) →
      ∃ answer, holdsPhrase found terms slop lastPrefix = some answer ∧
        (answer = true ↔ ∃ chosen, PhraseIn found terms slop lastPrefix chosen)) ↔
      terms ≠ [] ∧ (slop = 0 ∨ OneThenAnother terms lastPrefix)) := by
  have hempty {found : List Token} {answer : Bool}
      (h : holdsPhrase found terms slop lastPrefix = some answer) : terms ≠ [] := by
    rintro rfl
    cases h
  have hsome (found : List Token) (hterms : terms ≠ []) : ∃ answer, holdsPhrase found terms slop
      lastPrefix = some answer := by
    unfold holdsPhrase
    rw [if_neg hterms]
    exact ⟨_, rfl⟩
  have hone (found : List Token) (hsorted : found.Pairwise fun a b => a.1 ≤ b.1) :
      (∃ answer, holdsPhrase found terms slop lastPrefix = some answer ∧
        (answer = true ↔ ∃ chosen, PhraseIn found terms slop lastPrefix chosen)) ↔
      terms ≠ [] ∧ ((∃ chosen, PhraseIn found terms slop lastPrefix chosen) →
        ∃ chosen, PhraseIn found terms slop lastPrefix chosen ∧ Earliest found terms lastPrefix chosen) := by
    constructor
    · rintro ⟨answer, hanswer, hright⟩
      refine ⟨hempty hanswer, fun hphrase => ?_⟩
      rw [hright.mpr hphrase] at hanswer
      exact (holdsPhrase_earliest (hempty hanswer) hsorted).mp hanswer
    · rintro ⟨hterms, hcond⟩
      obtain ⟨answer, hanswer⟩ := hsome found hterms
      refine ⟨answer, hanswer, fun htrue => ?_, fun hphrase => ?_⟩
      · rw [htrue] at hanswer
        obtain ⟨chosen, hchosen, -⟩ := (holdsPhrase_earliest hterms hsorted).mp hanswer
        exact ⟨chosen, hchosen⟩
      · rw [(holdsPhrase_earliest hterms hsorted).mpr (hcond hphrase)] at hanswer
        exact (Option.some.inj hanswer).symm
  refine ⟨hone, fun h => ?_, fun ⟨hterms, hcond⟩ found hsorted => (hone found hsorted).mpr ⟨hterms, ?_⟩⟩
  · have hterms := ((hone [] .nil).mp (h [] .nil)).1
    refine ⟨hterms, ?_⟩
    -- A query outside the condition has an element on which its phrase is missed.
    by_contra hcond
    rw [not_or] at hcond
    obtain ⟨hslop, hcond⟩ := hcond
    unfold OneThenAnother at hcond
    push Not at hcond
    obtain ⟨place, hplace, hlt, ⟨term, hget, hnext⟩, hdiffer⟩ := hcond
    have hpos := Nat.pos_of_ne_zero hslop
    have hsorted := @strayTokens_sorted terms slop place hpos
    obtain ⟨chosen, hchosen, hearliest⟩ :=
      ((hone _ hsorted).mp (h _ hsorted)).2 ⟨_, strayTokens_phraseIn hpos hplace⟩
    refine strayTokens_not_earliest hpos hplace hlt ?_ hdiffer hchosen hearliest
    rw [getD_eq_getElem?_getD, hget]
    exact Bool.eq_false_iff.mpr hnext
  · rintro ⟨chosen, hchosen⟩
    exact hchosen.exists_earliest hcond

/-- With slop one, `a b b _ c` holds `a b c`: the scan takes the first `b`, from which `c` is too far. -/
theorem holdsPhrase_misses :
    holdsPhrase [(0, "a"), (1, "b"), (2, "b"), (4, "c")] ["a", "b", "c"] 1 false = some false ∧
      PhraseIn [(0, "a"), (1, "b"), (2, "b"), (4, "c")] ["a", "b", "c"] 1 false
        (fun place => match place with | 0 => (0, "a") | 1 => (2, "b") | _ => (4, "c")) := by
  refine ⟨by decide, ?_⟩
  refine ⟨fun place hlt => ?_, fun place term hget => ?_, fun place hlt => ?_⟩
  · match place, hlt with
    | 0, _ | 1, _ | 2, _ => simp
  · match place, hget with
    | 0, rfl | 1, rfl | 2, rfl => exact .inl rfl
  · match place, hlt with
    | 0, _ | 1, _ => exact ⟨by decide, by decide⟩

end Missed

end CameoDb
