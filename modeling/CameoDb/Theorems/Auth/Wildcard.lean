import CameoDb.Auth.ManagedFiles

/-! # Wildcard matching is complete

Taking the first place a part stands at leaves the most of the name to the parts after it. -/

namespace CameoDb
open List

/-- The name is the pattern with a run of characters in the place of each star. -/
def Fills : List Char → List Char → Prop
  | [], name => name = []
  | c :: pattern, name =>
    if c = '*' then ∃ run rest, name = run ++ rest ∧ Fills pattern rest
    else ∃ rest, name = c :: rest ∧ Fills pattern rest

variable {pattern name first part last rest after : List Char} {parts : List (List Char)}

theorem eq_of_restAfter (h : restAfter part name = some after) : ∃ run, name = run ++ (part ++ after) := by
  induction name with
  | nil => exact ⟨[], (isPrefixOf?_eq_some_iff_append_eq.mp h).symm⟩
  | cons c name ih =>
    rcases Option.or_eq_some_iff.mp h with h | ⟨-, h⟩
    · exact ⟨[], (isPrefixOf?_eq_some_iff_append_eq.mp h).symm⟩
    · obtain ⟨run, rfl⟩ := ih h
      exact ⟨c :: run, rfl⟩

/-- Wherever a part stands, what is left after its first place ends with what is left there. -/
theorem restAfter_append (run part after : List Char) :
    ∃ rest, restAfter part (run ++ (part ++ after)) = some rest ∧ after <:+ rest := by
  induction run with
  | nil =>
    refine ⟨after, ?_, suffix_refl after⟩
    have hstarts : part.isPrefixOf? (part ++ after) = some after := isPrefixOf?_eq_some_iff_append_eq.mpr rfl
    rw [nil_append]
    cases hchars : part ++ after with
    | nil => rwa [hchars] at hstarts
    | cons c rest =>
      rw [hchars] at hstarts
      rw [restAfter, hstarts, Option.some_or]
  | cons c run ih =>
    cases hstarts : part.isPrefixOf? (c :: (run ++ (part ++ after))) with
    | none => rwa [cons_append, restAfter, hstarts, Option.none_or]
    | some rest =>
      refine ⟨rest, by rw [cons_append, restAfter, hstarts, Option.some_or], ?_⟩
      -- The part stands at the very start, so at least as much is left after it.
      have htext : (c :: run ++ part) ++ after = part ++ rest := by
        rw [isPrefixOf?_eq_some_iff_append_eq.mp hstarts, append_assoc, cons_append]
      refine suffix_of_suffix_length_le ⟨_, htext⟩ ⟨_, rfl⟩ ?_
      have hlength := congrArg length htext
      simp only [length_append, length_cons] at hlength
      omega

/-- A name in which the parts stand one after the other, the first at its start and the last at its end. -/
def PartsFit : List (List Char) → List Char → Prop
  | [], name => name = []
  | [last], name => name = last
  | first :: part :: parts, name => ∃ run rest, name = first ++ (run ++ rest) ∧ PartsFit (part :: parts) rest

theorem fills_iff_partsFit : Fills pattern name ↔ PartsFit (pattern.splitOn '*') name := by
  induction pattern generalizing name with
  | nil => rfl
  | cons c pattern ih =>
    rw [Fills, splitOn_cons_eq_if_modifyHead]
    obtain ⟨part, parts, hparts⟩ := exists_cons_of_ne_nil (splitOn_ne_nil '*' pattern)
    simp only [ih, hparts, modifyHead_cons]
    split_ifs with hc hstar hstar
    · rfl
    · exact absurd (beq_iff_eq.mpr hc) hstar
    · exact absurd (beq_iff_eq.mp hstar) hc
    · cases parts with
      | nil => exact ⟨fun ⟨_, hname, hrest⟩ => hrest ▸ hname, fun hname => ⟨part, hname, rfl⟩⟩
      | cons next parts =>
        constructor
        · rintro ⟨_, rfl, run, rest, rfl, hfit⟩
          exact ⟨run, rest, rfl, hfit⟩
        · rintro ⟨run, rest, rfl, hfit⟩
          exact ⟨_, rfl, run, rest, rfl, hfit⟩

/-- The loop over the parts in the middle finds a place for each, if there is one. -/
theorem partsFit_iff_loop (parts : List (List Char)) (last rest : List Char) :
    (∃ run rest', rest = run ++ rest' ∧ PartsFit (parts ++ [last]) rest') ↔
      ∃ after, parts.foldlM (fun rest part => restAfter part rest) rest = some after ∧ last <:+ after := by
  induction parts generalizing rest with
  | nil =>
    constructor
    · rintro ⟨run, _, rfl, rfl⟩
      exact ⟨_, rfl, run, rfl⟩
    · rintro ⟨_, ⟨⟩, run, rfl⟩
      exact ⟨run, last, rfl, rfl⟩
  | cons part parts ih =>
    obtain ⟨next, others, hparts⟩ : ∃ next others, parts ++ [last] = next :: others :=
      exists_cons_of_ne_nil (by simp)
    rw [foldlM_cons, cons_append, hparts]
    rw [hparts] at ih
    constructor
    · rintro ⟨run, _, rfl, gap, rest', rfl, hfit⟩
      obtain ⟨after, hafter, front, hsuffix⟩ := restAfter_append run part (gap ++ rest')
      rw [hafter]
      exact (ih after).mp ⟨front ++ gap, rest', by rw [← hsuffix, append_assoc], hfit⟩
    · intro hloop
      cases hafter : restAfter part rest with
      | none =>
        rw [hafter] at hloop
        obtain ⟨_, ⟨⟩, _⟩ := hloop
      | some after =>
        rw [hafter] at hloop
        obtain ⟨gap, rest', rfl, hfit⟩ := (ih after).mpr hloop
        obtain ⟨run, rfl⟩ := eq_of_restAfter hafter
        exact ⟨run, _, rfl, gap, rest', rfl, hfit⟩

theorem wildcardMatches_iff_partsFit : wildcardMatches pattern name = true ↔ PartsFit (pattern.splitOn '*') name := by
  obtain ⟨first, parts, hparts⟩ := exists_cons_of_ne_nil (splitOn_ne_nil '*' pattern)
  simp only [wildcardMatches, hparts]
  cases hfirst : first.isPrefixOf? name with
  | none =>
    have hnot (rest : List Char) : name ≠ first ++ rest := by
      intro hname
      rw [isPrefixOf?_eq_some_iff_append_eq.mpr hname.symm] at hfirst
      cases hfirst
    refine iff_of_false Bool.false_ne_true fun hfit => ?_
    cases parts with
    | nil => exact hnot [] (by rw [append_nil]; exact hfit)
    | cons part parts =>
      obtain ⟨run, rest, hname, -⟩ := hfit
      exact hnot _ hname
  | some rest =>
    obtain rfl := isPrefixOf?_eq_some_iff_append_eq.mp hfirst
    rcases eq_nil_or_concat' parts with rfl | ⟨middle, last, rfl⟩
    · simp [PartsFit]
    · simp only [getLast?_concat, dropLast_concat]
      obtain ⟨part, others, hmiddle⟩ : ∃ part others, middle ++ [last] = part :: others :=
        exists_cons_of_ne_nil (by simp)
      have hfit : PartsFit (first :: (middle ++ [last])) (first ++ rest) ↔
          ∃ run rest', rest = run ++ rest' ∧ PartsFit (middle ++ [last]) rest' := by
        rw [hmiddle, PartsFit]
        simp only [append_cancel_left_eq]
      rw [hfit, partsFit_iff_loop]
      cases middle.foldlM (fun rest part => restAfter part rest) rest with
      | none => simp
      | some after =>
        simp only [Bool.and_eq_true, decide_eq_true_eq, isSuffixOf_iff_suffix, Option.some.injEq, exists_eq_left',
          and_iff_right_iff_imp]
        exact List.IsSuffix.length_le

/-- The first places the loop takes are no restriction: a name matches if it is the pattern with anything for each
    star. -/
theorem wildcard_matches_iff_fills (pattern name : List Char) :
    wildcardMatches pattern name = true ↔ Fills pattern name := by
  rw [wildcardMatches_iff_partsFit, fills_iff_partsFit]

end CameoDb
