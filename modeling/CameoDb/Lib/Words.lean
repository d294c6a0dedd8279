import CameoDb.Lib.Text

/-! # The words of a text

A text split at its white space. The words leave out how far apart they stand: written side by side again they are
the text they came from only where single spaces stood between them. -/

namespace CameoDb
open List

def splitWhitespace : List Char → List (List Char)
  | [] => []
  | c :: rest =>
    if isWhiteSpace c then splitWhitespace rest
    else if rest.head?.all isWhiteSpace then [c] :: splitWhitespace rest
    else
      match splitWhitespace rest with
      | [] => [[c]]
      | word :: others => (c :: word) :: others

def joinSpaces : List (List Char) → List Char
  | [] => []
  | [word] => word
  | word :: others => word ++ ' ' :: joinSpaces others

/-- Words stand one space apart. -/
def SingleSpaced (chars : List Char) : Prop :=
  ∀ before c after, chars = before ++ c :: after → isWhiteSpace c = true → c = ' ' ∧
    ∀ d ∈ after.head?, isWhiteSpace d = false

structure IsWord (word : List Char) : Prop where
  ne_nil : word ≠ []
  solid : ∀ c ∈ word, isWhiteSpace c = false

/-- A cut in front of the word of number `start`. -/
structure CutAt (chars front rest : List Char) (start : Nat) : Prop where
  text : chars = front ++ rest
  before : splitWhitespace front = (splitWhitespace chars).take start
  after : splitWhitespace rest = (splitWhitespace chars).drop start
  begins : ∃ c ∈ rest.head?, isWhiteSpace c = false

variable {chars front rest word gap : List Char} {words : List (List Char)} {c : Char}

theorem splitWhitespace_cons_space (h : isWhiteSpace c = true) :
    splitWhitespace (c :: rest) = splitWhitespace rest := by
  rw [splitWhitespace, if_pos h]

theorem splitWhitespace_gap_append (hgap : ∀ c ∈ gap, isWhiteSpace c = true) :
    splitWhitespace (gap ++ rest) = splitWhitespace rest := by
  induction gap with
  | nil => rfl
  | cons c gap ih =>
    rw [cons_append, splitWhitespace_cons_space (hgap c mem_cons_self)]
    exact ih fun d hd => hgap d (mem_cons_of_mem _ hd)

theorem splitWhitespace_word_append (hword : IsWord word) (hrest : ∀ c ∈ rest.head?, isWhiteSpace c = true) :
    splitWhitespace (word ++ rest) = word :: splitWhitespace rest := by
  obtain ⟨hne, hsolid⟩ := hword
  induction word with
  | nil => exact absurd rfl hne
  | cons c word ih =>
    have hc := hsolid c mem_cons_self
    rw [cons_append, splitWhitespace, if_neg (by simp [hc])]
    cases word with
    | nil =>
      rw [nil_append, if_pos]
      cases hhead : rest.head? with
      | none => rfl
      | some d => exact hrest d hhead
    | cons d word =>
      have hd := hsolid d (by simp)
      rw [if_neg (by simp [hd]), ih (by simp) fun d hd => hsolid d (mem_cons_of_mem _ hd)]

theorem text_cases (chars : List Char) : (∀ c ∈ chars, isWhiteSpace c = true) ∨
    ∃ gap word rest, chars = gap ++ (word ++ rest) ∧ (∀ c ∈ gap, isWhiteSpace c = true) ∧ IsWord word ∧
      ∀ c ∈ rest.head?, isWhiteSpace c = true := by
  induction chars with
  | nil => exact .inl nofun
  | cons c chars ih =>
    cases hc : isWhiteSpace c with
    | true =>
      rcases ih with hall | ⟨gap, word, rest, rfl, hgap, hword, hrest⟩
      · exact .inl (forall_mem_cons.mpr ⟨hc, hall⟩)
      · exact .inr ⟨c :: gap, word, rest, rfl, forall_mem_cons.mpr ⟨hc, hgap⟩, hword, hrest⟩
    | false =>
      refine .inr ⟨[], c :: chars.takeWhile (!isWhiteSpace ·),
        chars.dropWhile (!isWhiteSpace ·), by simp, nofun, ⟨by simp, ?_⟩, ?_⟩
      · refine forall_mem_cons.mpr ⟨hc, fun d hd => ?_⟩
        simpa using mem_takeWhile_imp hd
      · intro d hd
        have := head?_dropWhile_not (!isWhiteSpace ·) chars
        rw [hd] at this
        simpa using this

theorem splitWhitespace_eq_nil (h : ∀ c ∈ chars, isWhiteSpace c = true) : splitWhitespace chars = [] := by
  have hblank := @splitWhitespace_gap_append [] chars h
  rwa [append_nil] at hblank

@[elab_as_elim]
theorem text_induction {motive : List Char → Prop}
    (blank : ∀ chars, (∀ c ∈ chars, isWhiteSpace c = true) → motive chars)
    (word : ∀ gap word rest, (∀ c ∈ gap, isWhiteSpace c = true) → IsWord word →
    (∀ c ∈ rest.head?, isWhiteSpace c = true) →
      motive rest → motive (gap ++ (word ++ rest))) (chars : List Char) : motive chars := by
  induction hlength : chars.length using Nat.strongRecOn generalizing chars with
  | ind n ih =>
    rcases text_cases chars with hblank | ⟨gap, first, rest, rfl, hgap, hfirst, hrest⟩
    · exact blank chars hblank
    · refine word gap first rest hgap hfirst hrest (ih rest.length ?_ rest rfl)
      have hpos := length_pos_iff.mpr hfirst.ne_nil
      simp only [length_append] at hlength
      omega

theorem splitWhitespace_next (hgap : ∀ c ∈ gap, isWhiteSpace c = true) (hword : IsWord word)
    (hrest : ∀ c ∈ rest.head?, isWhiteSpace c = true) :
    splitWhitespace (gap ++ (word ++ rest)) = word :: splitWhitespace rest := by
  rw [splitWhitespace_gap_append hgap, splitWhitespace_word_append hword hrest]

theorem splitWhitespace_isWord (chars : List Char) : ∀ word ∈ splitWhitespace chars, IsWord word := by
  induction chars using text_induction with
  | blank chars hblank =>
    rw [splitWhitespace_eq_nil hblank]
    exact nofun
  | word gap word rest hgap hword hrest ih =>
    rw [splitWhitespace_next hgap hword hrest]
    exact forall_mem_cons.mpr ⟨hword, ih⟩

theorem splitWhitespace_append_gap (chars : List Char) (hgap : ∀ c ∈ gap, isWhiteSpace c = true) :
    splitWhitespace (chars ++ gap) = splitWhitespace chars := by
  induction chars using text_induction with
  | blank chars hblank =>
    rw [splitWhitespace_gap_append hblank, splitWhitespace_eq_nil hgap, splitWhitespace_eq_nil hblank]
  | word first word rest hfirst hword hrest ih =>
    have hrest' : ∀ c ∈ (rest ++ gap).head?, isWhiteSpace c = true := by
      cases rest with
      | nil => exact fun c hc => hgap c (mem_of_mem_head? hc)
      | cons d rest => exact hrest
    rw [append_assoc, append_assoc, splitWhitespace_next hfirst hword hrest',
      splitWhitespace_next hfirst hword hrest, ih]

theorem splitWhitespace_trimChars (chars : List Char) : splitWhitespace (trimChars chars) = splitWhitespace chars := by
  have hfront : ∀ c ∈ chars.takeWhile isWhiteSpace, isWhiteSpace c = true := fun c hc => mem_takeWhile_imp hc
  have hback : ∀ c ∈ (chars.dropWhile isWhiteSpace).rtakeWhile isWhiteSpace, isWhiteSpace c = true := fun c hc =>
    mem_rtakeWhile_imp hc
  unfold trimChars
  rw [← splitWhitespace_append_gap _ hback, rdropWhile_append_rtakeWhile, ← splitWhitespace_gap_append hfront,
    takeWhile_append_dropWhile]

theorem exists_word_of_mem {c : Char} (hc : isWhiteSpace c = false) :
    c ∈ chars → ∃ word ∈ splitWhitespace chars, c ∈ word := by
  induction chars using text_induction with
  | blank chars hblank =>
    intro hmem
    rw [hblank c hmem] at hc
    cases hc
  | word gap word rest hgap hword hrest ih =>
    intro hmem
    rw [splitWhitespace_next hgap hword hrest]
    rcases mem_append.mp hmem with hin | hin
    · rw [hgap c hin] at hc
      cases hc
    · rcases mem_append.mp hin with hin | hin
      · exact ⟨word, mem_cons_self, hin⟩
      · obtain ⟨other, hother, hin⟩ := ih hin
        exact ⟨other, mem_cons_of_mem _ hother, hin⟩

theorem exists_cutAt (chars : List Char) {start : Nat} (h : start < (splitWhitespace chars).length) :
    ∃ front rest, CutAt chars front rest start := by
  induction chars using text_induction generalizing start with
  | blank chars hblank =>
    rw [splitWhitespace_eq_nil hblank] at h
    cases h
  | word gap word rest hgap hword hrest ih =>
    have hwords := splitWhitespace_next hgap hword hrest
    rw [hwords, length_cons] at h
    cases start with
    | zero =>
      refine ⟨gap, word ++ rest, rfl, ?_, ?_, ?_⟩
      · rw [splitWhitespace_eq_nil hgap, take_zero]
      · rw [hwords, drop_zero, splitWhitespace_word_append hword hrest]
      · obtain ⟨c, word, rfl⟩ := exists_cons_of_ne_nil hword.ne_nil
        exact ⟨c, rfl, hword.solid c mem_cons_self⟩
    | succ start =>
      obtain ⟨front, back, htext, hbefore, hafter, hbegins⟩ := @ih start (by omega)
      have hfront : ∀ c ∈ front.head?, isWhiteSpace c = true := by
        intro c hc
        refine hrest c ?_
        rw [htext, head?_append, hc]
        rfl
      refine ⟨gap ++ (word ++ front), back, by rw [htext]; simp, ?_, ?_, hbegins⟩
      · rw [splitWhitespace_next hgap hword hfront, hwords, take_succ_cons, hbefore]
      · rw [hwords, drop_succ_cons, hafter]

/-! ### Characters kept -/

theorem exists_part_of_mem {c separator : Char} {chars : List Char} (hne : c ≠ separator) (hmem : c ∈ chars) :
    ∃ part ∈ chars.splitOn separator, c ∈ part := by
  induction chars with
  | nil => cases hmem
  | cons d chars ih =>
    rw [splitOn_cons_eq_if_modifyHead]
    split
    · next hd =>
      rcases mem_cons.mp hmem with rfl | hmem
      · exact absurd (by simpa using hd) hne
      · obtain ⟨part, hpart, hin⟩ := ih hmem
        exact ⟨part, mem_cons_of_mem _ hpart, hin⟩
    · cases hsplit : chars.splitOn separator with
      | nil => exact absurd hsplit (splitOn_ne_nil _ _)
      | cons first others =>
        rw [modifyHead_cons]
        rcases mem_cons.mp hmem with rfl | hmem
        · exact ⟨c :: first, mem_cons_self, mem_cons_self⟩
        · obtain ⟨part, hpart, hin⟩ := ih hmem
          rw [hsplit] at hpart
          rcases mem_cons.mp hpart with rfl | hpart
          · exact ⟨d :: part, mem_cons_self, mem_cons_of_mem _ hin⟩
          · exact ⟨part, mem_cons_of_mem _ hpart, hin⟩

theorem mem_trimChars {c : Char} {chars : List Char} (hc : isWhiteSpace c = false) (hmem : c ∈ chars) :
    c ∈ trimChars chars := by
  rw [← @takeWhile_append_dropWhile _ isWhiteSpace chars] at hmem
  rcases mem_append.mp hmem with hin | hin
  · rw [mem_takeWhile_imp hin] at hc
    cases hc
  · rw [← @rdropWhile_append_rtakeWhile _ isWhiteSpace (chars.dropWhile isWhiteSpace)] at hin
    rcases mem_append.mp hin with hin | hin
    · exact hin
    · rw [mem_rtakeWhile_imp hin] at hc
      cases hc

/-! ### Single spaces -/

theorem joinSpaces_cons_cons {word next : List Char} {others : List (List Char)} :
    joinSpaces (word :: next :: others) = word ++ ' ' :: joinSpaces (next :: others) := rfl

theorem isWhiteSpace_space : isWhiteSpace ' ' = true := by decide

theorem joinSpaces_head (h : ∀ word ∈ words, IsWord word) : ∀ c ∈ (joinSpaces words).head?, isWhiteSpace c = false := by
  match words with
  | [] => exact nofun
  | [word] => exact fun c hc => (h word mem_cons_self).solid c (mem_of_mem_head? hc)
  | word :: next :: others =>
    intro c hc
    have hword := h word mem_cons_self
    rw [joinSpaces_cons_cons, head?_append_of_ne_nil _ hword.ne_nil] at hc
    exact hword.solid c (mem_of_mem_head? hc)

theorem joinSpaces_ne_nil {others : List (List Char)} (h : IsWord word) : joinSpaces (word :: others) ≠ [] := by
  cases others with
  | nil => exact h.ne_nil
  | cons next others =>
    rw [joinSpaces_cons_cons]
    simp

theorem joinSpaces_getLast (h : ∀ word ∈ words, IsWord word) :
    ∀ c ∈ (joinSpaces words).getLast?, isWhiteSpace c = false := by
  induction words with
  | nil => exact nofun
  | cons word others ih =>
    intro c hc
    cases others with
    | nil => exact (h word mem_cons_self).solid c (mem_of_mem_getLast? hc)
    | cons next others =>
      have hne := @joinSpaces_ne_nil next others (h next (by simp))
      rw [joinSpaces_cons_cons, getLast?_append_of_ne_nil _ (by simp), getLast?_cons_of_ne_nil hne] at hc
      exact ih (fun w hw => h w (mem_cons_of_mem _ hw)) c hc

theorem trimChars_joinSpaces (h : ∀ word ∈ words, IsWord word) : trimChars (joinSpaces words) = joinSpaces words := by
  have hdrop : (joinSpaces words).dropWhile isWhiteSpace = joinSpaces words := by
    cases hjoin : joinSpaces words with
    | nil => rfl
    | cons c rest =>
      have hc := joinSpaces_head h c (by rw [hjoin]; rfl)
      rw [dropWhile_cons_of_neg (by simp [hc])]
  rw [trimChars, hdrop, rdropWhile_eq_self_iff]
  intro hne
  have hlast := joinSpaces_getLast h _ (getLast?_eq_some_getLast hne)
  simp [hlast]

theorem SingleSpaced.of_append (h : SingleSpaced (front ++ rest)) : SingleSpaced rest := by
  intro before c after heq hspace
  exact h (front ++ before) c after (by rw [heq, append_assoc]) hspace

theorem singleSpaced_joinSpaces (h : ∀ word ∈ words, IsWord word) : SingleSpaced (joinSpaces words) := by
  induction words with
  | nil => exact fun before c after heq => by simp [joinSpaces] at heq
  | cons word others ih =>
    have hword := (h word mem_cons_self).solid
    have hothers : ∀ word ∈ others, IsWord word := fun w hw => h w (mem_cons_of_mem _ hw)
    intro before c after heq hspace
    cases others with
    | nil =>
      rw [hword c (by rw [show word = _ from heq]; simp)] at hspace
      cases hspace
    | cons next others =>
      rw [joinSpaces_cons_cons] at heq
      -- The white space is not in the word: it is the space after it, or further on.
      rcases append_eq_append_iff.mp heq with ⟨mid, rfl, htail⟩ | ⟨mid, rfl, htail⟩
      · cases mid with
        | nil =>
          obtain ⟨rfl, rfl⟩ := cons_eq_cons.mp htail
          exact ⟨rfl, joinSpaces_head hothers⟩
        | cons d mid => exact ih hothers mid c after (cons_eq_cons.mp htail).2 hspace
      · cases mid with
        | nil =>
          obtain ⟨rfl, rfl⟩ := cons_eq_cons.mp htail
          exact ⟨rfl, joinSpaces_head hothers⟩
        | cons d mid =>
          obtain ⟨rfl, -⟩ := cons_eq_cons.mp htail
          rw [hword c (by simp)] at hspace
          cases hspace

/-- A single spaced text that does not end in white space is its words written side by side, but for what it begins
    with. -/
theorem joinSpaces_splitWhitespace (hsingle : SingleSpaced chars)
    (hlast : ∀ c ∈ chars.getLast?, isWhiteSpace c = false) :
    joinSpaces (splitWhitespace chars) = chars.dropWhile isWhiteSpace := by
  induction chars using text_induction with
  | blank chars hblank =>
    rw [splitWhitespace_eq_nil hblank, dropWhile_eq_nil_iff.mpr hblank]
    rfl
  | word gap word rest hgap hword hrest ih =>
    have hdrop : (gap ++ (word ++ rest)).dropWhile isWhiteSpace = word ++ rest := by
      rw [dropWhile_append_of_pos hgap]
      obtain ⟨c, word, rfl⟩ := exists_cons_of_ne_nil hword.ne_nil
      rw [cons_append, dropWhile_cons_of_neg (by simp [hword.solid c mem_cons_self])]
    have hrestSingle : SingleSpaced rest := hsingle.of_append.of_append
    rw [hdrop, splitWhitespace_next hgap hword hrest]
    cases rest with
    | nil => simp [splitWhitespace, joinSpaces]
    | cons c rest =>
      obtain ⟨rfl, hnext⟩ := hrestSingle [] c rest rfl (hrest c rfl)
      have hlast' : ∀ c ∈ (' ' :: rest).getLast?, isWhiteSpace c = false := by
        intro c hc
        refine hlast c ?_
        rw [getLast?_append_of_ne_nil _ (by simp), getLast?_append_of_ne_nil _ (by simp)]
        exact hc
      have hrejoin := ih hrestSingle hlast'
      rw [dropWhile_cons_of_pos isWhiteSpace_space] at hrejoin
      cases rest with
      | nil =>
        have := hlast' ' ' rfl
        rw [isWhiteSpace_space] at this
        cases this
      | cons d rest =>
        have hd := hnext d rfl
        rw [dropWhile_cons_of_neg (by simp [hd])] at hrejoin
        cases hsplit : splitWhitespace (' ' :: d :: rest) with
        | nil =>
          rw [hsplit] at hrejoin
          cases hrejoin
        | cons next others => rw [joinSpaces_cons_cons, ← hsplit, hrejoin]

theorem trimChars_getLast : ∀ c ∈ (trimChars chars).getLast?, isWhiteSpace c = false := by
  intro c hc
  have hne : trimChars chars ≠ [] := by
    intro hnil
    rw [hnil] at hc
    cases hc
  rw [getLast?_eq_some_getLast hne] at hc
  cases hc
  exact Bool.eq_false_iff.mpr (rdropWhile_last_not isWhiteSpace (chars.dropWhile isWhiteSpace) hne)

theorem trimChars_dropWhile : (trimChars chars).dropWhile isWhiteSpace = trimChars chars := by
  cases htrim : trimChars chars with
  | nil => rfl
  | cons c rest =>
    have hstarts : trimChars chars <+: chars.dropWhile isWhiteSpace := rdropWhile_prefix ..
    obtain ⟨back, hback⟩ := hstarts
    have hhead := head?_dropWhile_not isWhiteSpace chars
    rw [← hback, htrim] at hhead
    rw [dropWhile_cons_of_neg (by simpa using hhead)]

theorem trimChars_eq_joinSpaces_iff : trimChars chars = joinSpaces (splitWhitespace chars) ↔ SingleSpaced
    (trimChars chars) := by
  constructor
  · intro h
    rw [h]
    exact singleSpaced_joinSpaces (splitWhitespace_isWord chars)
  · intro h
    have hrejoin := joinSpaces_splitWhitespace h trimChars_getLast
    rwa [splitWhitespace_trimChars, trimChars_dropWhile, eq_comm] at hrejoin

end CameoDb
