import CameoDb.Node.QueryKeywords

/-! # Inline modifiers: what is cut off a query

The clauses of a run say the same in any order. The query in front of it is put together again from its words. -/

namespace CameoDb
open List

/-! ### Runs as lists of clauses -/

inductive Modifier where
  | limit (n : Nat)
  | offset (n : Nat)
  | array (n : Nat)
  | switch (b : Bool)
  | sort (spec : SortSpec)
  | fields (names : List String)

namespace Modifier

def keyword : Modifier → String
  | limit _ => "limit"
  | offset _ => "offset"
  | array _ => "array"
  | switch _ => "matches"
  | sort _ => "sort"
  | fields _ => "return"

theorem keyword_mem (m : Modifier) : m.keyword ∈ modifierKeywords := by
  cases m <;> simp [keyword, modifierKeywords]

end Modifier

namespace QueryModifiers

def set (run : QueryModifiers) : Modifier → QueryModifiers
  | .limit n => { run with limit := some n }
  | .offset n => { run with offset := some n }
  | .array n => { run with array := some n }
  | .switch b => { run with matches_ := some b }
  | .sort spec => { run with sort := some spec }
  | .fields names => { run with fields := some names }

/-- The run has no modifier of this kind yet. -/
def Unset (run : QueryModifiers) : Modifier → Prop
  | .limit _ => run.limit = none
  | .offset _ => run.offset = none
  | .array _ => run.array = none
  | .switch _ => run.matches_ = none
  | .sort _ => run.sort = none
  | .fields _ => run.fields = none

variable {run : QueryModifiers} {m n : Modifier}

theorem unset_set : (run.set m).Unset n ↔ run.Unset n ∧ m.keyword ≠ n.keyword := by
  cases m <;> cases n <;> simp [set, Unset, Modifier.keyword]

theorem set_comm (h : m.keyword ≠ n.keyword) : (run.set m).set n = (run.set n).set m := by
  cases m <;> cases n <;> first | rfl | exact absurd rfl h

end QueryModifiers

/-! ### What a clause says -/

section Leaves
variable (alphanumeric : Alphanumeric)

/-- A field's name: letters, digits, `_`, `.` and `-`. -/
def IsName (name : List Char) : Prop := name ≠ [] ∧ ∀ c ∈ name, alphanumeric.holds c = true ∨
    c = '_' ∨ c = '.' ∨ c = '-'

/-- Decimal digits, perhaps after a plus, of a `u64`. -/
def IsNumber (token : String) (n : Nat) : Prop :=
  ∃ digits, (token.toList = digits ∨ token.toList = '+' :: digits) ∧ digits ≠ [] ∧ (∀ c ∈ digits, c.isDigit = true) ∧
    Nat.ofDigitChars 10 digits 0 = n ∧ n < 2 ^ 64

/-- The spellings of the `matches` switch. -/
def IsSwitch (token : String) (b : Bool) : Prop :=
  (token = "on" ∨ token = "true") ∧ b = true ∨ (token = "off" ∨ token = "false") ∧ b = false

def orderText : SortOrder → List Char
  | .asc => "asc".toList
  | .desc => "desc".toList

/-- A field, and in whatever case the order behind a colon, which is ascending where none stands. -/
structure IsSort (token : String) (spec : SortSpec) : Prop where
  name : IsName alphanumeric spec.field.toList
  order : token = spec.field ∧ spec.order = .asc ∨
    ∃ suffix, token.toList = spec.field.toList ++ ':' :: suffix ∧ suffix.map Char.toLower = orderText spec.order

/-- The names that stand between the commas, in their order. Between two words there is a comma. -/
structure IsFieldList (list names : List String) : Prop where
  commas : ∀ front token next back, list = front ++ token :: next :: back →
    token.toList.getLast? = some ',' ∨ next.toList.head? = some ','
  between : names.map String.toList = ((list.flatMap fun token => token.toList.splitOn ',').map trimChars).filter
    (!·.isEmpty)
  valid : ∀ name ∈ names, IsName alphanumeric name.toList
  nonempty : names ≠ []

variable {alphanumeric} {token : String} {tokens names : List String}

theorem isFieldName_iff {name : List Char} : isFieldName alphanumeric name = true ↔ IsName alphanumeric name := by
  simp [isFieldName, IsName, or_assoc]

theorem digits_iff {limit n : Nat} {text : List Char} : Decimal.digits limit text = some n ↔
    text ≠ [] ∧ (∀ c ∈ text, c.isDigit = true) ∧ Nat.ofDigitChars 10 text 0 = n ∧ n < limit := by
  unfold Decimal.digits
  rw [Option.ite_none_right_eq_some, all_eq_true, Option.some_inj]
  constructor
  · rintro ⟨⟨hne, hdigits, hlt⟩, rfl⟩
    exact ⟨hne, hdigits, rfl, hlt⟩
  · rintro ⟨hne, hdigits, rfl, hlt⟩
    exact ⟨⟨hne, hdigits, hlt⟩, rfl⟩

theorem parseUsize_iff {n : Nat} : parseUsize token = some n ↔ IsNumber token n := by
  unfold parseUsize Decimal.parse IsNumber
  split
  · next rest heq =>
    rw [digits_iff, heq]
    constructor
    · exact fun h => ⟨rest, .inr rfl, h⟩
    · rintro ⟨digits, rfl | hdigits, h⟩
      · exact absurd (h.2.1 '+' mem_cons_self) (by decide)
      · rwa [(cons_eq_cons.mp hdigits).2]
  · next hplus =>
    rw [digits_iff]
    constructor
    · exact fun h => ⟨_, .inl rfl, h⟩
    · rintro ⟨digits, rfl | hdigits, h⟩
      · exact h
      · exact absurd hdigits (hplus digits)

theorem parseSwitch_iff {b : Bool} : parseSwitch token = some b ↔ IsSwitch token b := by
  unfold parseSwitch IsSwitch
  split_ifs with hon hoff
  · have hnot : ¬ (token = "off" ∨ token = "false") := by rcases hon with rfl | rfl <;> decide
    simp [hon, hnot, eq_comm]
  · simp [hon, hoff, eq_comm]
  · simp [hon, hoff]

theorem IsName.not_mem {name : List Char} (h : IsName alphanumeric name) {c : Char} (hascii : c.toNat < 128)
    (hc : (c.isAlphanum || c = '_' || c = '.' || c = '-') = false) : c ∉ name := by
  intro hmem
  have hholds := h.2 c hmem
  rw [alphanumeric.ascii c hascii] at hholds
  simp only [Bool.or_eq_false_iff, decide_eq_false_iff_not] at hc
  simp [hc] at hholds

theorem parseSortSpec_iff {spec : SortSpec} :
    parseSortSpec alphanumeric token = some spec ↔ IsSort alphanumeric token spec := by
  unfold parseSortSpec
  dsimp only
  constructor
  · intro h
    split at h
    · cases h
    · next order horder =>
      obtain ⟨hname, h⟩ := Option.ite_none_right_eq_some.mp h
      cases h
      refine ⟨by rw [String.toList_ofList]; exact isFieldName_iff.mp hname, ?_⟩
      rw [String.toList_ofList]
      have htoken := @takeWhile_append_dropWhile _ (fun c : Char => decide (c ≠ ':')) token.toList
      split at horder
      · next heq =>
        rw [heq, append_nil] at htoken
        exact .inl ⟨by rw [htoken, String.ofList_toList], (Option.some.inj horder).symm⟩
      · next c suffix heq =>
        have hcolon : c = ':' := by
          have hhead := head?_dropWhile_not (fun c : Char => decide (c ≠ ':')) token.toList
          rw [heq] at hhead
          simpa using hhead
        rw [heq, hcolon] at htoken
        refine .inr ⟨suffix, htoken.symm, ?_⟩
        split_ifs at horder with hasc hdesc <;> cases horder
        · exact hasc
        · exact hdesc
  · rintro ⟨hname, horder⟩
    have hfield : ∀ c ∈ spec.field.toList, decide (c ≠ ':') = true := by
      rintro c hc
      refine decide_eq_true ?_
      rintro rfl
      exact hname.not_mem (by decide) (by decide) hc
    rcases horder with ⟨rfl, horder⟩ | ⟨suffix, htoken, horder⟩
    · rw [takeWhile_eq_self_iff.mpr hfield, dropWhile_eq_nil_iff.mpr hfield]
      dsimp only
      rw [if_pos (isFieldName_iff.mpr hname), String.ofList_toList, ← horder]
    · rw [htoken, takeWhile_append_of_pos hfield, dropWhile_append_of_pos hfield, takeWhile_cons_of_neg (by simp),
        dropWhile_cons_of_neg (by simp), append_nil]
      dsimp only
      rw [horder]
      cases hspec : spec.order <;> simp [orderText, isFieldName_iff.mpr hname, ← hspec]

theorem commasBetween_iff : commasBetween tokens = true ↔ ∀ front token next back, tokens =
    front ++ token :: next :: back → token.toList.getLast? = some ',' ∨ next.toList.head? = some ',' := by
  induction tokens with
  | nil => simp [commasBetween]
  | cons first rest ih =>
    cases rest with
    | nil =>
      refine iff_of_true rfl fun front token next back heq => ?_
      have hlength := congrArg length heq
      simp at hlength
      omega
    | cons second rest =>
      rw [commasBetween, Bool.and_eq_true, ih, commaBetween, Bool.or_eq_true, decide_eq_true_eq, decide_eq_true_eq]
      constructor
      · rintro ⟨hfirst, hrest⟩ front token next back heq
        cases front with
        | nil =>
          cases heq
          exact hfirst
        | cons _ front => exact hrest front token next back (cons_eq_cons.mp heq).2
      · exact fun h => ⟨h [] first second rest rfl, fun front token next back heq =>
          h (first :: front) token next back (congrArg (cons first) heq)⟩

theorem parseFieldList_iff : parseFieldList alphanumeric tokens = some names ↔
    IsFieldList alphanumeric tokens names := by
  unfold parseFieldList
  dsimp only
  rw [Option.ite_none_left_eq_some, Option.ite_none_right_eq_some, Option.some_inj]
  set between := ((tokens.flatMap fun token => token.toList.splitOn ',').map trimChars).filter (!·.isEmpty) with hset
  have hback : (between.map String.ofList).map String.toList = between := by simp
  simp only [Bool.or_eq_true, Bool.not_eq_true', not_or, Bool.not_eq_false, Bool.and_eq_true,
    all_eq_true, commasBetween_iff, Bool.not_eq_true, isEmpty_eq_false_iff, isFieldName_iff]
  constructor
  · rintro ⟨⟨-, hcommas⟩, ⟨hvalid, hne⟩, rfl⟩
    exact ⟨hcommas, hback, by simpa using hvalid, by simpa using hne⟩
  · rintro ⟨hcommas, hbetween, hvalid, hne⟩
    have hnames : between.map String.ofList = names := by
      rw [← hset] at hbetween
      rw [← hbetween]
      simp
    refine ⟨⟨?_, hcommas⟩, ⟨?_, ?_⟩, hnames⟩
    · rintro rfl
      exact hne hnames.symm
    · rw [← hnames] at hvalid
      simpa using hvalid
    · rintro hnil
      rw [hnil] at hnames
      exact hne hnames.symm

end Leaves

section Clauses
variable {alphanumeric : Alphanumeric} {run final : QueryModifiers} {tokens rest : List String} {m : Modifier}

/-- The tokens spell this modifier. -/
def IsClause (alphanumeric : Alphanumeric) (tokens : List String) : Modifier → Prop
  | .limit n => ∃ token, tokens = ["limit", token] ∧ IsNumber token n
  | .offset n => ∃ token, tokens = ["offset", token] ∧ IsNumber token n
  | .array n => ∃ token, tokens = ["array", token] ∧ IsNumber token n
  | .switch b => ∃ token, tokens = ["matches", token] ∧ IsSwitch token b
  | .sort spec => ∃ token, tokens = ["sort", token] ∧ IsSort alphanumeric token spec
  | .fields names => ∃ list, tokens = "return" :: list ∧ (∀ token ∈ list, token ∉ modifierKeywords) ∧
      IsFieldList alphanumeric list names

theorem IsClause.head (h : IsClause alphanumeric tokens m) : tokens.head? = some m.keyword := by
  cases m <;> obtain ⟨token, rfl, -⟩ := h <;> rfl

/-- A field list ends at the next keyword. -/
def Ends (m : Modifier) (rest : List String) : Prop :=
  match m with
  | .fields _ => ∀ token ∈ rest.head?, token ∈ modifierKeywords
  | _ => True

theorem argument_iff {α : Type} {parse : String → Option α} {set : α → QueryModifiers} {after : List String} :
    argument parse set tokens = some (final, after) ↔ ∃ token value, tokens = token :: after ∧
    parse token = some value ∧ final = set value := by
  cases tokens with
  | nil => simp [argument]
  | cons token rest =>
    simp only [argument, Option.map_eq_some_iff, Prod.mk.injEq, cons.injEq]
    constructor
    · rintro ⟨value, hvalue, rfl, rfl⟩
      exact ⟨token, value, ⟨rfl, rfl⟩, hvalue, rfl⟩
    · rintro ⟨_, value, ⟨rfl, rfl⟩, hvalue, rfl⟩
      exact ⟨value, hvalue, rfl, rfl⟩

theorem takeWhile_ends (list after : List String) (hlist : ∀ token ∈ list, token ∉ modifierKeywords)
    (hafter : ∀ token ∈ after.head?, token ∈ modifierKeywords) :
    (list ++ after).takeWhile (· ∉ modifierKeywords) = list ∧ (list ++ after).dropWhile
    (· ∉ modifierKeywords) = after := by
  have hlist' : ∀ token ∈ list, decide (token ∉ modifierKeywords) = true := fun token htoken => by
    simpa using hlist token htoken
  rw [takeWhile_append_of_pos hlist', dropWhile_append_of_pos hlist']
  cases after with
  | nil => exact ⟨append_nil _, rfl⟩
  | cons token after =>
    have htoken := hafter token rfl
    rw [takeWhile_cons_of_neg (by simpa using htoken), dropWhile_cons_of_neg (by simpa using htoken)]
    exact ⟨append_nil _, rfl⟩

theorem modifierClause_iff : modifierClause alphanumeric run tokens = some (final, rest) ↔
    ∃ clause m, tokens = clause ++ rest ∧ IsClause alphanumeric clause m ∧ run.Unset m ∧
    final = run.set m ∧ Ends m rest := by
  constructor
  · intro h
    cases tokens with
    | nil => cases h
    | cons keyword others =>
      rw [modifierClause] at h
      split_ifs at h with hlimit hoffset harray hmatches hsort hreturn
      · obtain ⟨rfl, hunset⟩ := hlimit
        obtain ⟨token, n, rfl, hparse, rfl⟩ := argument_iff.mp h
        exact ⟨["limit", token], .limit n, rfl, ⟨token, rfl, parseUsize_iff.mp hparse⟩, hunset, rfl, trivial⟩
      · obtain ⟨rfl, hunset⟩ := hoffset
        obtain ⟨token, n, rfl, hparse, rfl⟩ := argument_iff.mp h
        exact ⟨["offset", token], .offset n, rfl, ⟨token, rfl, parseUsize_iff.mp hparse⟩, hunset, rfl, trivial⟩
      · obtain ⟨rfl, hunset⟩ := harray
        obtain ⟨token, n, rfl, hparse, rfl⟩ := argument_iff.mp h
        exact ⟨["array", token], .array n, rfl, ⟨token, rfl, parseUsize_iff.mp hparse⟩, hunset, rfl, trivial⟩
      · obtain ⟨rfl, hunset⟩ := hmatches
        obtain ⟨token, b, rfl, hparse, rfl⟩ := argument_iff.mp h
        exact ⟨["matches", token], .switch b, rfl, ⟨token, rfl, parseSwitch_iff.mp hparse⟩, hunset, rfl, trivial⟩
      · obtain ⟨rfl, hunset⟩ := hsort
        obtain ⟨token, spec, rfl, hparse, rfl⟩ := argument_iff.mp h
        exact ⟨["sort", token], .sort spec, rfl, ⟨token, rfl, parseSortSpec_iff.mp hparse⟩, hunset, rfl, trivial⟩
      · obtain ⟨rfl, hunset⟩ := hreturn
        obtain ⟨names, hparse, heq⟩ := Option.map_eq_some_iff.mp h
        rw [Prod.mk.injEq] at heq
        obtain ⟨rfl, rfl⟩ := heq
        refine ⟨"return" :: others.takeWhile (· ∉ modifierKeywords), .fields names, ?_,
          ⟨_, rfl, ?_, parseFieldList_iff.mp hparse⟩, hunset, rfl, ?_⟩
        · rw [cons_append, takeWhile_append_dropWhile]
        · intro token htoken
          simpa using mem_takeWhile_imp htoken
        · intro token htoken
          have hhead := head?_dropWhile_not (fun token : String => decide (token ∉ modifierKeywords)) others
          rw [htoken] at hhead
          simpa using hhead
  · rintro ⟨clause, m, rfl, hclause, hunset, rfl, hends⟩
    cases m with
    | limit | offset | array =>
      obtain ⟨token, rfl, hparse⟩ := hclause
      simp only [QueryModifiers.Unset] at hunset
      simp [modifierClause, argument, parseUsize_iff.mpr hparse, hunset, QueryModifiers.set]
    | switch =>
      obtain ⟨token, rfl, hparse⟩ := hclause
      simp only [QueryModifiers.Unset] at hunset
      simp [modifierClause, argument, parseSwitch_iff.mpr hparse, hunset, QueryModifiers.set]
    | sort =>
      obtain ⟨token, rfl, hparse⟩ := hclause
      simp only [QueryModifiers.Unset] at hunset
      simp [modifierClause, argument, parseSortSpec_iff.mpr hparse, hunset, QueryModifiers.set]
    | fields names =>
      obtain ⟨list, rfl, hlist, hparse⟩ := hclause
      obtain ⟨htake, hdrop⟩ := takeWhile_ends list rest hlist hends
      rw [cons_append, modifierClause, if_neg (by simp), if_neg (by simp), if_neg (by simp),
        if_neg (by simp), if_neg (by simp), if_pos ⟨rfl, hunset⟩, htake, hdrop, parseFieldList_iff.mpr hparse]
      rfl

/-- The tokens are these clauses, no kind twice. -/
structure Spells (alphanumeric : Alphanumeric) (run : QueryModifiers) (tokens : List String)
    (clauses : List (List String × Modifier)) : Prop where
  flatten : tokens = (clauses.map Prod.fst).flatten
  clause : ∀ c ∈ clauses, IsClause alphanumeric c.1 c.2
  nodup : (clauses.map fun c => c.2.keyword).Nodup
  unset : ∀ c ∈ clauses, run.Unset c.2

def setAll (run : QueryModifiers) (clauses : List (List String × Modifier)) : QueryModifiers :=
  clauses.foldl (fun run c => run.set c.2) run

theorem IsClause.ne_nil (h : IsClause alphanumeric tokens m) : tokens ≠ [] := by
  rintro rfl
  cases h.head

variable {clauses : List (List String × Modifier)}

/-- What comes after a clause in a run begins with a keyword. -/
theorem Spells.ends (h : Spells alphanumeric run rest clauses) (m : Modifier) : Ends m rest := by
  cases m with
  | fields names =>
    intro token htoken
    rw [h.flatten] at htoken
    cases clauses with
    | nil => cases htoken
    | cons next others =>
      have hnext := h.clause next mem_cons_self
      rw [map_cons, flatten_cons, head?_append_of_ne_nil _ hnext.ne_nil, hnext.head] at htoken
      cases htoken
      exact next.2.keyword_mem
  | _ => exact trivial

theorem spells_cons {clause : List String} :
    Spells alphanumeric run tokens ((clause, m) :: clauses) ↔ ∃ rest, tokens = clause ++ rest ∧
    IsClause alphanumeric clause m ∧ run.Unset m ∧ Spells alphanumeric (run.set m) rest clauses := by
  constructor
  · rintro ⟨hflatten, hclause, hnodup, hunset⟩
    rw [map_cons, nodup_cons] at hnodup
    refine ⟨(clauses.map Prod.fst).flatten, hflatten, hclause _ mem_cons_self, hunset _ mem_cons_self, rfl,
      fun c hc => hclause c (mem_cons_of_mem _ hc), hnodup.2, fun c hc => ?_⟩
    refine QueryModifiers.unset_set.mpr ⟨hunset c (mem_cons_of_mem _ hc), fun heq => hnodup.1 ?_⟩
    exact mem_map.mpr ⟨c, hc, heq.symm⟩
  · rintro ⟨rest, rfl, hclause, hunset, hrest⟩
    refine ⟨by rw [hrest.flatten]; rfl, forall_mem_cons.mpr ⟨hclause, hrest.clause⟩, ?_, ?_⟩
    · refine nodup_cons.mpr ⟨fun hmem => ?_, hrest.nodup⟩
      obtain ⟨c, hc, heq⟩ := mem_map.mp hmem
      exact (QueryModifiers.unset_set.mp (hrest.unset c hc)).2 heq.symm
    · exact forall_mem_cons.mpr ⟨hunset, fun c hc => (QueryModifiers.unset_set.mp (hrest.unset c hc)).1⟩

theorem modifierLoop_iff {steps : Nat} (hsteps : tokens.length ≤ steps) :
    modifierLoop alphanumeric steps run tokens = some final ↔
    ∃ clauses, Spells alphanumeric run tokens clauses ∧ final = setAll run clauses := by
  have hnil (run : QueryModifiers) (steps : Nat) : modifierLoop alphanumeric steps run [] = some final ↔
      ∃ clauses, Spells alphanumeric run [] clauses ∧ final = setAll run clauses := by
    have hloop : modifierLoop alphanumeric steps run [] = some run := by cases steps <;> rfl
    rw [hloop]
    constructor
    · rintro ⟨⟩
      exact ⟨[], ⟨rfl, nofun, .nil, nofun⟩, rfl⟩
    · rintro ⟨clauses, hspells, rfl⟩
      cases clauses with
      | nil => rfl
      | cons c clauses =>
        obtain ⟨rest, happend, hclause, -⟩ := spells_cons.mp hspells
        exact absurd (append_eq_nil_iff.mp happend.symm).1 hclause.ne_nil
  induction steps generalizing run tokens with
  | zero =>
    obtain rfl : tokens = [] := length_eq_zero_iff.mp (by omega)
    exact hnil run 0
  | succ steps ih =>
    cases tokens with
    | nil => exact hnil run _
    | cons token others =>
      have hshorter {clause rest : List String} (hclause : clause ≠ []) (heq : token :: others = clause ++ rest) :
          rest.length ≤ steps := by
        have hlength := congrArg length heq
        have hpos := length_pos_iff.mpr hclause
        simp only [length_cons, length_append] at hlength hsteps
        omega
      rw [modifierLoop]
      constructor
      · intro h
        split at h
        · cases h
        · next next rest hstep =>
          obtain ⟨clause, m, heq, hclause, hunset, rfl, -⟩ := modifierClause_iff.mp hstep
          obtain ⟨clauses, hspells, rfl⟩ := (ih (hshorter hclause.ne_nil heq)).mp h
          exact ⟨(clause, m) :: clauses, spells_cons.mpr ⟨rest, heq, hclause, hunset, hspells⟩, rfl⟩
      · rintro ⟨clauses, hspells, rfl⟩
        cases clauses with
        | nil => cases hspells.flatten
        | cons c clauses =>
          obtain ⟨rest, heq, hclause, hunset, hrest⟩ := spells_cons.mp hspells
          have hstep := modifierClause_iff.mpr ⟨c.1, c.2, heq, hclause, hunset, rfl, hrest.ends c.2⟩
          rw [hstep]
          exact (ih (hshorter hclause.ne_nil heq)).mpr ⟨clauses, hrest, rfl⟩

theorem parseModifierRun_iff : parseModifierRun alphanumeric tokens = some final ↔
    ∃ clauses, Spells alphanumeric {} tokens clauses ∧ final = setAll {} clauses :=
  modifierLoop_iff le_rfl

theorem Spells.setAll_perm {clauses others : List (List String × Modifier)} (h : Spells alphanumeric run tokens clauses)
    (hperm : clauses.Perm others) : setAll run others = setAll run clauses := by
  refine (hperm.symm.foldl_eq' (fun c hc d hd run => ?_) run)
  by_cases heq : c.2.keyword = d.2.keyword
  · rw [inj_on_of_nodup_map ((hperm.map _).nodup_iff.mp h.nodup) hc hd heq]
  · exact QueryModifiers.set_comm heq

end Clauses

/-! ### Quotes -/

section Quotes
variable {alphanumeric : Alphanumeric} {token : String} {tokens : List String}

/-- One character read: whether a phrase is open, and whether the next character is escaped. -/
def quoteStep (state : Bool × Bool) (c : Char) : Bool × Bool :=
  if state.2 then (state.1, false)
  else if c = '\\' then (state.1, true)
  else if c = '"' then (!state.1, false)
  else (state.1, false)

/-- Whether a text ends inside a quoted phrase. -/
def quoteOpen (chars : List Char) : Bool := (chars.foldl quoteStep (false, false)).1

theorem quoteStep_of_ne {state : Bool × Bool} {c : Char} (h : c ≠ '"') : (quoteStep state c).1 = state.1 := by
  unfold quoteStep
  split_ifs <;> rfl

theorem quoteOpen_append {front rest : List Char} (h : '"' ∉ rest) : quoteOpen (front ++ rest) = quoteOpen front := by
  have hrest (state : Bool × Bool) : (rest.foldl quoteStep state).1 = state.1 := by
    induction rest generalizing state with
    | nil => rfl
    | cons c rest ih =>
      rw [foldl_cons, ih (fun hmem => h (mem_cons_of_mem _ hmem)), quoteStep_of_ne]
      rintro rfl
      exact h mem_cons_self
  rw [quoteOpen, foldl_append, hrest, quoteOpen]

theorem IsNumber.no_quote {n : Nat} (h : IsNumber token n) : '"' ∉ token.toList := by
  obtain ⟨digits, htoken, -, hdigits, -⟩ := h
  have hnot : '"' ∉ digits := fun hmem => absurd (hdigits _ hmem) (by decide)
  rcases htoken with htoken | htoken <;> rw [htoken]
  · exact hnot
  · exact not_mem_cons_of_ne_of_not_mem (by decide) hnot

theorem IsSort.no_quote {spec : SortSpec} (h : IsSort alphanumeric token spec) : '"' ∉ token.toList := by
  have hname : '"' ∉ spec.field.toList := h.name.not_mem (by decide) (by decide)
  rcases h.order with ⟨rfl, -⟩ | ⟨suffix, htoken, horder⟩
  · exact hname
  · have hsuffix : '"' ∉ suffix := by
      intro hmem
      have hlower : '"' ∈ orderText spec.order := horder ▸ mem_map.mpr ⟨'"', hmem, by decide⟩
      revert hlower
      cases spec.order <;> decide
    rw [htoken]
    exact fun hmem => (mem_append.mp hmem).elim hname (not_mem_cons_of_ne_of_not_mem (by decide) hsuffix)

theorem IsFieldList.no_quote {names : List String} (h : IsFieldList alphanumeric tokens names) :
    ∀ token ∈ tokens, '"' ∉ token.toList := by
  intro token htoken hmem
  obtain ⟨part, hpart, hin⟩ := exists_part_of_mem (show '"' ≠ ',' by decide) hmem
  have htrim := mem_trimChars (show isWhiteSpace '"' = false by decide) hin
  have hbetween : trimChars part ∈ names.map String.toList := by
    rw [h.between]
    refine mem_filter.mpr ⟨mem_map.mpr ⟨part, mem_flatMap.mpr ⟨token, htoken, hpart⟩, rfl⟩, ?_⟩
    simpa using ne_nil_of_mem htrim
  obtain ⟨name, hname, heq⟩ := mem_map.mp hbetween
  exact (h.valid name hname).not_mem (by decide) (by decide) (heq ▸ htrim)

theorem IsClause.no_quote {m : Modifier} (h : IsClause alphanumeric tokens m) :
    ∀ token ∈ tokens, '"' ∉ token.toList := by
  have hpair {keyword token : String} (hkeyword : '"' ∉ keyword.toList) (htoken : '"' ∉ token.toList) :
      ∀ t ∈ [keyword, token], '"' ∉ t.toList := by
    simp [hkeyword, htoken]
  cases m with
  | limit n | offset n | array n =>
    obtain ⟨token, rfl, hnumber⟩ := h
    exact hpair (by decide) hnumber.no_quote
  | switch b =>
    obtain ⟨token, rfl, hswitch⟩ := h
    refine hpair (by decide) ?_
    rcases hswitch with ⟨rfl | rfl, -⟩ | ⟨rfl | rfl, -⟩ <;> decide
  | sort spec =>
    obtain ⟨token, rfl, hsort⟩ := h
    exact hpair (by decide) hsort.no_quote
  | fields names =>
    obtain ⟨list, rfl, -, hlist⟩ := h
    exact forall_mem_cons.mpr ⟨by decide, hlist.no_quote⟩

theorem Spells.no_quote {clauses : List (List String × Modifier)} (h : Spells alphanumeric {} tokens clauses) :
    ∀ token ∈ tokens, '"' ∉ token.toList := by
  rw [h.flatten]
  intro token htoken
  obtain ⟨clause, hclause, hin⟩ := mem_flatten.mp htoken
  obtain ⟨c, hc, rfl⟩ := mem_map.mp hclause
  exact (h.clause c hc).no_quote token hin

end Quotes

/-! ### Where the query ends -/

section Cut
variable {alphanumeric : Alphanumeric} {tokens : List String} {query : String} {front rest : List Char}
  {run : QueryModifiers}

/-- The query falls into a text and the earliest run of clauses behind a word of it. -/
def EarliestCut (alphanumeric : Alphanumeric) (query : String) (front rest : List Char)
    (clauses : List (List String × Modifier)) : Prop :=
  ∃ start, 1 ≤ start ∧ CutAt query.toList front rest start ∧ Spells alphanumeric {} (tokensOf rest) clauses ∧
    ∀ earlier, 1 ≤ earlier → earlier < start → ∀ others, ¬ Spells alphanumeric {}
      ((tokensOf query.toList).drop earlier) others

theorem parseModifierRun_eq_none_iff : parseModifierRun alphanumeric tokens = none ↔ ∀ clauses, ¬ Spells alphanumeric
    {} tokens clauses := by
  rw [Option.eq_none_iff_forall_ne_some]
  constructor
  · exact fun h clauses hspells => h _ (parseModifierRun_iff.mpr ⟨clauses, hspells, rfl⟩)
  · intro h run hrun
    obtain ⟨clauses, hspells, -⟩ := parseModifierRun_iff.mp hrun
    exact h clauses hspells

theorem parseModifierRun_head (h : parseModifierRun alphanumeric tokens = some run) :
    ∀ token ∈ tokens.head?, token ∈ modifierKeywords := by
  obtain ⟨clauses, hspells, -⟩ := parseModifierRun_iff.mp h
  exact hspells.ends (.fields [])

theorem parseModifierRun_drop {place : Nat} {token : String} (htoken : tokens[place]? = some token)
    (hkeyword : token ∉ modifierKeywords) : parseModifierRun alphanumeric (tokens.drop place) = none := by
  cases hplace : parseModifierRun alphanumeric (tokens.drop place) with
  | none => rfl
  | some found =>
    refine absurd (parseModifierRun_head hplace token ?_) hkeyword
    rw [head?_drop, htoken]
    rfl

variable {start : Nat}

theorem firstRun_eq {places : List Nat} (hplaces : ∀ place ∈ places, place < tokens.length) :
    firstRun alphanumeric tokens places =
    (places.find? fun place => (parseModifierRun alphanumeric (tokens.drop place)).isSome).bind fun place =>
      (parseModifierRun alphanumeric (tokens.drop place)).map (place, ·) := by
  induction places with
  | nil => rfl
  | cons place others ih =>
    have hlt := hplaces place mem_cons_self
    have htoken := getElem?_eq_getElem hlt
    rw [firstRun, htoken, ih fun other hother => hplaces other (mem_cons_of_mem _ hother)]
    by_cases hkeyword : tokens[place] ∈ modifierKeywords
    · cases hrun : parseModifierRun alphanumeric (tokens.drop place) <;> simp [hkeyword, hrun]
    · simp [hkeyword, parseModifierRun_drop htoken hkeyword]

theorem firstRun_eq_some_iff : firstRun alphanumeric tokens (range' 1 (tokens.length - 1)) = some (start, run) ↔
    1 ≤ start ∧ start < tokens.length ∧ parseModifierRun alphanumeric (tokens.drop start) = some run ∧
      ∀ earlier, 1 ≤ earlier → earlier < start → parseModifierRun alphanumeric (tokens.drop earlier) = none := by
  rw [firstRun_eq fun place hplace => by have := mem_range'_1.mp hplace; omega]
  simp only [Option.bind_eq_some_iff, Option.map_eq_some_iff, find?_range'_eq_some, mem_range'_1, Prod.mk.injEq]
  constructor
  · rintro ⟨place, ⟨-, hplace, hbefore⟩, _, hrun, rfl, rfl⟩
    exact ⟨hplace.1, by omega, hrun, fun earlier hge hlt => by simpa using hbefore earlier hge hlt⟩
  · rintro ⟨hge, hlt, hrun, hbefore⟩
    exact ⟨start, ⟨by simp [hrun], ⟨hge, by omega⟩, fun earlier hge hlt => by simp [hbefore earlier hge hlt]⟩, run,
      hrun, rfl, rfl⟩

theorem tokensOf_rest (h : CutAt query.toList front rest start) :
    tokensOf rest = (tokensOf query.toList).drop start := by
  rw [tokensOf, h.after, tokensOf, map_drop]

theorem CutAt.lt_length (h : CutAt query.toList front rest start) : start < (tokensOf query.toList).length := by
  obtain ⟨c, hc, hsolid⟩ := h.begins
  obtain ⟨word, hword, -⟩ := exists_word_of_mem hsolid (mem_of_mem_head? hc)
  rw [h.after] at hword
  have hpos := length_pos_of_mem hword
  rw [length_drop] at hpos
  rw [tokensOf, length_map]
  omega

variable {clauses : List (List String × Modifier)}

theorem parseQueryKeywords_cut (h : EarliestCut alphanumeric query front rest clauses) :
    parseQueryKeywords alphanumeric query =
      { setAll {} clauses with query := String.ofList (joinSpaces (splitWhitespace front)) } := by
  obtain ⟨start, hstart, hcut, hspells, hearlier⟩ := h
  rw [tokensOf_rest hcut] at hspells
  have hfirst := firstRun_eq_some_iff.mpr ⟨hstart, hcut.lt_length, parseModifierRun_iff.mpr ⟨clauses, hspells, rfl⟩,
    fun earlier hge hlt => parseModifierRun_eq_none_iff.mpr (hearlier earlier hge hlt)⟩
  simp only [parseQueryKeywords, hfirst]
  rw [hcut.before, tokensOf, ← map_take, map_map]
  simp

theorem parseQueryKeywords_whole (h : ∀ front rest clauses, ¬ EarliestCut alphanumeric query front rest clauses) :
    parseQueryKeywords alphanumeric query = { query := query } := by
  unfold parseQueryKeywords
  dsimp only
  split
  · next start run hfirst =>
    obtain ⟨hge, hlt, hrun, hbefore⟩ := firstRun_eq_some_iff.mp hfirst
    obtain ⟨clauses, hspells, -⟩ := parseModifierRun_iff.mp hrun
    obtain ⟨front, rest, hcut⟩ := exists_cutAt query.toList (by simpa [tokensOf] using hlt)
    refine absurd ⟨start, hge, hcut, tokensOf_rest hcut ▸ hspells, fun earlier hge hlt => ?_⟩ (h front rest clauses)
    exact parseModifierRun_eq_none_iff.mp (hbefore earlier hge hlt)
  · rfl

theorem EarliestCut.no_quote (h : EarliestCut alphanumeric query front rest clauses) : '"' ∉ rest := by
  obtain ⟨start, -, -, hspells, -⟩ := h
  intro hmem
  obtain ⟨word, hword, hin⟩ := exists_word_of_mem (show isWhiteSpace '"' = false by decide) hmem
  refine hspells.no_quote (String.ofList word) (mem_map.mpr ⟨word, hword, rfl⟩) ?_
  rwa [String.toList_ofList]

/-- What the modifiers at the end of a query do. -/
structure RemovesModifiers (alphanumeric : Alphanumeric) (query : String) : Prop where
  /-- A query without a run of modifiers is left as it is. -/
  whole : (∀ front rest clauses, ¬ EarliestCut alphanumeric query front rest clauses) →
    parseQueryKeywords alphanumeric query = { query := query }
  /-- The query is what stands in front of the run, but for the white space around it. -/
  kept : ∀ front rest clauses, EarliestCut alphanumeric query front rest clauses →
    trimChars (parseQueryKeywords alphanumeric query).query.toList = trimChars front
  /-- What is set is what the clauses of the run say. -/
  values : ∀ front rest clauses, EarliestCut alphanumeric query front rest clauses →
    parseQueryKeywords alphanumeric query =
      { setAll {} clauses with query := (parseQueryKeywords alphanumeric query).query }
  /-- A query that ends in the same clauses in another order sets the same. -/
  order : ∀ front rest clauses, EarliestCut alphanumeric query front rest clauses → ∀ other front' rest' clauses',
    EarliestCut alphanumeric other front' rest' clauses' → clauses.Perm clauses' →
      { parseQueryKeywords alphanumeric other with query := "" } =
        { parseQueryKeywords alphanumeric query with query := "" }
  /-- No quote stands behind the cut, so it is inside a phrase only where the query ends inside one. -/
  quotes : ∀ front rest clauses, EarliestCut alphanumeric query front rest clauses →
    '"' ∉ rest ∧ (quoteOpen query.toList = false → quoteOpen front = false)

/-- Nothing but the modifiers is removed exactly where the words in front of them stood one space apart. -/
theorem removesModifiers_iff (alphanumeric : Alphanumeric) (query : String) : RemovesModifiers alphanumeric query ↔
    ∀ front rest clauses, EarliestCut alphanumeric query front rest clauses → SingleSpaced (trimChars front) := by
  have hkept {front rest : List Char} {clauses : List (List String × Modifier)}
      (hcut : EarliestCut alphanumeric query front rest clauses) :
      trimChars (parseQueryKeywords alphanumeric query).query.toList = trimChars front ↔
        SingleSpaced (trimChars front) := by
    rw [parseQueryKeywords_cut hcut, String.toList_ofList, trimChars_joinSpaces (splitWhitespace_isWord front), eq_comm]
    exact trimChars_eq_joinSpaces_iff
  constructor
  · exact fun h front rest clauses hcut => (hkept hcut).mp (h.kept front rest clauses hcut)
  · intro h
    refine ⟨parseQueryKeywords_whole, fun front rest clauses hcut => (hkept hcut).mpr (h front rest clauses hcut),
      fun front rest clauses hcut => ?_, fun front rest clauses hcut other front' rest' clauses' hcut' hperm => ?_,
      fun front rest clauses hcut => ?_⟩
    · rw [parseQueryKeywords_cut hcut]
    · rw [parseQueryKeywords_cut hcut, parseQueryKeywords_cut hcut']
      obtain ⟨start, -, -, hspells, -⟩ := hcut
      rw [hspells.setAll_perm hperm]
    · refine ⟨hcut.no_quote, fun hbalanced => ?_⟩
      obtain ⟨start, -, hat, -⟩ := id hcut
      rwa [hat.text, quoteOpen_append hcut.no_quote] at hbalanced

def asciiOnly : Alphanumeric := ⟨Char.isAlphanum, fun _ _ => rfl⟩

/-- With a limit behind it, a phrase with two spaces in it loses one. -/
theorem parseQueryKeywords_respaced :
    parseQueryKeywords asciiOnly "title:\"a  b\" limit 5" = { query := "title:\"a b\"", limit := some 5 } ∧
      ¬ RemovesModifiers asciiOnly "title:\"a  b\" limit 5" := by
  have hparse : parseQueryKeywords asciiOnly "title:\"a  b\" limit 5" =
      { query := "title:\"a b\"", limit := some 5 } := by decide
  refine ⟨hparse, fun h => ?_⟩
  have hcut : EarliestCut asciiOnly "title:\"a  b\" limit 5" "title:\"a  b\" ".toList "limit 5".toList
      [(["limit", "5"], .limit 5)] := by
    refine ⟨2, by decide, ⟨by decide, by decide, by decide, 'l', rfl, by decide⟩, ⟨by decide, ?_, by decide, ?_⟩, ?_⟩
    · rintro c hc
      cases mem_singleton.mp hc
      exact ⟨"5", rfl, ['5'], .inl rfl, cons_ne_nil _ _, forall_mem_singleton.mpr rfl, rfl, by decide⟩
    · rintro c hc
      cases mem_singleton.mp hc
      rfl
    · intro earlier hge hlt
      obtain rfl : earlier = 1 := by omega
      exact parseModifierRun_eq_none_iff.mp (by decide)
  have hkept := h.kept _ _ _ hcut
  rw [hparse] at hkept
  revert hkept
  decide

end Cut

end CameoDb
