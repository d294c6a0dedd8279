import CameoDb.Storage.NotClauses

/-! # The leaf behind a `NOT`

A leaf ends before the first white space or closing parenthesis outside phrases and its own brackets. The scan that
looks for it pairs the brackets of the whole query first, and steps over those of the leaf. -/

namespace CameoDb
open List Option Reader

def readerAt (bytes : List Char) (i : Nat) : Reader := past {} (bytes.take i)

/-- The place is outside phrases and escapes. -/
def Unquoted (bytes : List Char) (i : Nat) : Prop :=
  i ≤ bytes.length ∧ (readerAt bytes i).escaped = false ∧ (readerAt bytes i).phrase = false

def bracketDepth (r : Reader) (c : Char) (depth : Nat) : Nat :=
  if r.escaped || r.phrase then depth
  else if c ∈ ['(', '[', '{'] then depth + 1
  else if c ∈ [')', ']', '}'] then depth - 1
  else depth

/-- How many brackets opened since a byte are open at another, whatever their kind. In phrases and after escapes
    they are text. -/
def openSince (bytes : List Char) (start : Nat) : Nat → Nat
  | 0 => 0
  | i + 1 => if i < start then 0 else bracketDepth (readerAt bytes i) (bytes.getD i ' ') (openSince bytes start i)

/-- A leaf may end before white space or a closing parenthesis, outside phrases and its own brackets. -/
def LeafStops (bytes : List Char) (start i : Nat) : Prop :=
  ∃ c, bytes[i]? = some c ∧ (isAsciiWhitespace c = true ∨ c = ')') ∧ Unquoted bytes i ∧ openSince bytes start i = 0

/-- The first place where it may, or the end of the query. -/
structure FirstStop (bytes : List Char) (start stop : Nat) : Prop where
  le : start ≤ stop
  inside : ∀ i, start ≤ i → i < stop → ¬ LeafStops bytes start i
  stops : stop = bytes.length ∨ LeafStops bytes start stop

/-- An `IN` and a set follow. -/
def SetFollows (rest set : List Char) : Prop :=
  ∃ gap gap', rest = gap ++ ("IN".toList ++ (gap' ++ set)) ∧ (∀ c ∈ gap, isAsciiWhitespace c = true) ∧
    (∀ c ∈ gap', isAsciiWhitespace c = true) ∧ set.head? = some '['

/-- The first closing bracket of a set that is not text. -/
structure ClosesSet (r : Reader) (set inside after : List Char) : Prop where
  text : set = inside ++ ']' :: after
  escaped : (r.past inside).escaped = false
  phrase : (r.past inside).phrase = false
  first : ∀ front back, inside = front ++ ']' :: back → (r.past front).escaped = true ∨ (r.past front).phrase = true

/-- Where the leaf that begins at a byte ends. A set behind the colon it ends with belongs to it. -/
inductive LeafEnds (bytes : List Char) (start : Nat) : Nat → Prop
  | plain {stop : Nat} (h : FirstStop bytes start stop)
      (hplain : start < stop → bytes[stop - 1]? = some ':' → ∀ set, ¬ SetFollows (bytes.drop stop) set) :
      LeafEnds bytes start stop
  | set {stop : Nat} {set inside after : List Char} (h : FirstStop bytes start stop)
      (hset : SetFollows (bytes.drop stop) set)
      (hlt : start < stop) (hcolon : bytes[stop - 1]? = some ':') (hcloses : ClosesSet {} set inside after) :
      LeafEnds bytes start (bytes.length - after.length)
  | unclosed {stop : Nat} {set : List Char} (h : FirstStop bytes start stop) (hset : SetFollows (bytes.drop stop) set)
      (hlt : start < stop) (hcolon : bytes[stop - 1]? = some ':')
      (hopen : ∀ inside after, ¬ ClosesSet {} set inside after) : LeafEnds bytes start bytes.length

section Reading
variable {bytes : List Char} {i n : Nat} {c : Char}

theorem readerAt_zero : readerAt bytes 0 = {} := by rw [readerAt, take_zero, past_nil]

theorem readerAt_succ (h : bytes[i]? = some c) : readerAt bytes (i + 1) = (readerAt bytes i).next c := by
  rw [readerAt, take_add_one, h, past_append]
  rfl

theorem lt_of_getElem? (h : bytes[i]? = some c) : i < bytes.length := (List.getElem?_eq_some_iff.mp h).1

theorem readerAt_escape (h : bytes[i]? = some '\\') (hescaped : (readerAt bytes i).escaped = false)
    (hle : i + 2 ≤ bytes.length) : readerAt bytes (i + 2) = readerAt bytes i := by
  obtain ⟨d, hd⟩ : ∃ d, bytes[i + 1]? = some d := ⟨_, getElem?_eq_getElem (by omega)⟩
  rw [readerAt_succ hd, readerAt_succ h]
  generalize readerAt bytes i = r at hescaped
  obtain ⟨escaped, phrase, depth⟩ := r
  obtain rfl : escaped = false := hescaped
  rfl

theorem next_phrase (r : Reader) (c : Char) : (r.next c).escaped = (!r.escaped && c = '\\') ∧
    (r.next c).phrase = if r.escaped = false ∧ c = '"' then !r.phrase else r.phrase := by
  unfold Reader.next
  grind

theorem openSince_of_le {start : Nat} (h : i ≤ start) : openSince bytes start i = 0 := by
  cases i with
  | zero => rfl
  | succ i => rw [openSince, if_pos (by omega)]

theorem openSince_succ {start : Nat} (hle : start ≤ i) (hc : bytes[i]? = some c) :
    openSince bytes start (i + 1) = bracketDepth (readerAt bytes i) c (openSince bytes start i) := by
  rw [openSince, if_neg (by omega), getD_eq_getElem?_getD, hc, getD_some]

/-- A bracket opened at a byte is open up to another. -/
def OpenUpTo (bytes : List Char) (start stop : Nat) : Prop := ∀ i, start < i → i ≤ stop → 0 < openSince bytes start i

/-- The brackets found so far: on the stack those not closed yet, the innermost first, and the others with what
    closed them. -/
structure BracketScan.Found (bytes : List Char) (s : BracketScan) : Prop where
  escaped : s.escaped = (readerAt bytes s.i).escaped
  inQuote : s.inQuote = (readerAt bytes s.i).phrase
  all : ∀ i c, i < s.i → bytes[i]? = some c → opensBracket c = true → Unquoted bytes i → ∃ pair ∈ s.pairs, pair.1 = i
  nodup : s.opened.Nodup
  opened : ∀ t k, s.opened[t]? = some k → ∃ start, s.pairs[k]? = some (start, bytes.length) ∧ start < s.i ∧
    openSince bytes start s.i = t + 1 ∧ OpenUpTo bytes start s.i
  closed : ∀ k pair, k ∉ s.opened → s.pairs[k]? = some pair → pair.1 < pair.2 ∧ pair.2 < s.i ∧
    OpenUpTo bytes pair.1 pair.2 ∧ openSince bytes pair.1 (pair.2 + 1) = 0 ∧ Unquoted bytes (pair.2 + 1)

variable {s : BracketScan}

theorem OpenUpTo.succ {start stop : Nat} (h : OpenUpTo bytes start stop)
    (hopen : 0 < openSince bytes start (stop + 1)) : OpenUpTo bytes start (stop + 1) := by
  intro i hlt hle
  rcases Nat.le_or_eq_of_le_succ hle with hle | rfl
  · exact h i hlt hle
  · exact hopen

theorem BracketScan.Found.lt_length {k : Nat} (h : s.Found bytes) (hk : k ∈ s.opened) : k < s.pairs.length := by
  obtain ⟨t, ht⟩ := mem_iff_getElem?.mp hk
  obtain ⟨start, hpair, -⟩ := h.opened t k ht
  exact (List.getElem?_eq_some_iff.mp hpair).1

/-- A byte that opens no bracket, and closes none that is open. -/
theorem BracketScan.Found.pass {s' : BracketScan} (h : s.Found bytes) (hc : bytes[s.i]? = some c) (hi : s'.i = s.i + 1)
    (hopened : s'.opened = s.opened) (hpairs : s'.pairs = s.pairs)
    (hescaped : s'.escaped = (readerAt bytes (s.i + 1)).escaped)
    (hinQuote : s'.inQuote = (readerAt bytes (s.i + 1)).phrase)
    (hdepth : s.opened ≠ [] → ∀ depth, bracketDepth (readerAt bytes s.i) c depth = depth)
    (hnone : opensBracket c = true → ¬ Unquoted bytes s.i) : s'.Found bytes where
  escaped := by rw [hescaped, hi]
  inQuote := by rw [hinQuote, hi]
  all i d hlt hd hopens hunquoted := by
    rw [hi] at hlt
    rw [hpairs]
    rcases Nat.lt_or_eq_of_le (Nat.le_of_lt_succ hlt) with hlt | rfl
    · exact h.all i d hlt hd hopens hunquoted
    · cases hc.symm.trans hd
      exact absurd hunquoted (hnone hopens)
  nodup := hopened ▸ h.nodup
  opened t k hk := by
    rw [hopened] at hk
    obtain ⟨start, hpair, hstart, hopen, hup⟩ := h.opened t k hk
    have hnext : openSince bytes start (s.i + 1) = t + 1 := by
      rw [openSince_succ hstart.le hc, hdepth (by rintro hnil; rw [hnil] at hk; cases hk), hopen]
    rw [hpairs, hi]
    exact ⟨start, hpair, by omega, hnext, hup.succ (by omega)⟩
  closed k pair hk hpair := by
    rw [hopened] at hk
    rw [hpairs] at hpair
    obtain ⟨hlt, hbefore, hrest⟩ := h.closed k pair hk hpair
    exact ⟨hlt, by omega, hrest⟩

/-- A bracket opens: it goes on the stack, paired with the end of the query. -/
theorem BracketScan.Found.push (h : s.Found bytes) (hc : bytes[s.i]? = some c) (hopens : opensBracket c = true)
    (hunquoted : Unquoted bytes s.i) (hnext : Unquoted bytes (s.i + 1)) :
    Found bytes { s with i := s.i + 1, opened := s.pairs.length :: s.opened, pairs := s.pairs ++ [(s.i, bytes.length)] }
    where
  escaped := by rw [h.escaped, hunquoted.2.1, hnext.2.1]
  inQuote := by rw [h.inQuote, hunquoted.2.2, hnext.2.2]
  all i d hi hd hopens' hunquoted' := by
    rcases Nat.lt_or_eq_of_le (Nat.le_of_lt_succ hi) with hi | rfl
    · obtain ⟨pair, hpair, heq⟩ := h.all i d hi hd hopens' hunquoted'
      exact ⟨pair, mem_append_left _ hpair, heq⟩
    · exact ⟨_, mem_append_right _ (mem_singleton_self _), rfl⟩
  nodup := nodup_cons.mpr ⟨fun hmem => absurd (h.lt_length hmem) (Nat.lt_irrefl _), h.nodup⟩
  opened t k hk := by
    have hdepth (depth : Nat) : bracketDepth (readerAt bytes s.i) c depth = depth + 1 := by
      simp only [opensBracket, Bool.or_eq_true, decide_eq_true_eq] at hopens
      simp only [bracketDepth, hunquoted.2.1, hunquoted.2.2, mem_cons, not_mem_nil]
      grind
    cases t with
    | zero =>
      cases hk
      have hone : openSince bytes s.i (s.i + 1) = 1 := by
        rw [openSince_succ (Nat.le_refl _) hc, hdepth, openSince_of_le (Nat.le_refl _)]
      refine ⟨s.i, by simp, Nat.lt_succ_self _, hone, fun i hi hle => ?_⟩
      obtain rfl : i = s.i + 1 := Nat.le_antisymm hle hi
      omega
    | succ t =>
      rw [getElem?_cons_succ] at hk
      obtain ⟨start, hpair, hstart, hopen, hup⟩ := h.opened t k hk
      have hmore : openSince bytes start (s.i + 1) = t + 1 + 1 := by rw [openSince_succ hstart.le hc, hdepth, hopen]
      refine ⟨start, ?_, Nat.lt_succ_of_lt hstart, hmore, hup.succ (by omega)⟩
      rw [getElem?_append_left (h.lt_length (mem_of_getElem? hk)), hpair]
  closed k pair hk hpair := by
    rw [mem_cons, not_or] at hk
    rw [getElem?_append_left (by grind)] at hpair
    obtain ⟨hlt, hbefore, hrest⟩ := h.closed k pair hk.2 hpair
    exact ⟨hlt, Nat.lt_succ_of_lt hbefore, hrest⟩

/-- A bracket closes the innermost that is open. -/
theorem BracketScan.Found.pop {k : Nat} {opened : List Nat} (h : s.Found bytes) (hc : bytes[s.i]? = some c)
    (hcloses : closesBracket c = true) (hunquoted : Unquoted bytes s.i) (hnext : Unquoted bytes (s.i + 1))
    (hopened : s.opened = k :: opened) :
    Found bytes { s with i := s.i + 1, opened := opened, pairs := s.pairs.modify k fun pair => (pair.1, s.i) } := by
  have hkind : opensBracket c = false ∧ ∀ depth, bracketDepth (readerAt bytes s.i) c depth = depth - 1 := by
    simp only [closesBracket, Bool.or_eq_true, decide_eq_true_eq] at hcloses
    simp only [bracketDepth, hunquoted.2.1, hunquoted.2.2]
    rcases hcloses with (rfl | rfl) | rfl <;> exact ⟨rfl, fun _ => rfl⟩
  have hnodup := h.nodup
  rw [hopened, nodup_cons] at hnodup
  obtain ⟨start, hpair, hstart, hopen, hup⟩ := h.opened 0 k (by rw [hopened]; rfl)
  refine ⟨by rw [h.escaped, hunquoted.2.1, hnext.2.1], by rw [h.inQuote, hunquoted.2.2, hnext.2.2], ?_, hnodup.2,
    ?_, ?_⟩
  · intro i d hi hd hopens hunquoted'
    rcases Nat.lt_or_eq_of_le (Nat.le_of_lt_succ hi) with hi | rfl
    · obtain ⟨pair, hpair, heq⟩ := h.all i d hi hd hopens hunquoted'
      obtain ⟨j, hj⟩ := mem_iff_getElem?.mp hpair
      by_cases hjk : k = j
      · subst hjk
        exact ⟨(pair.1, s.i), mem_of_getElem? (by rw [getElem?_modify_eq, hj]; rfl), heq⟩
      · exact ⟨pair, mem_of_getElem? (by rw [getElem?_modify_ne _ _ hjk, hj]), heq⟩
    · cases hc.symm.trans hd
      rw [hkind.1] at hopens
      cases hopens
  · intro t k' hk'
    obtain ⟨start', hpair', hstart', hopen', hup'⟩ := h.opened (t + 1) k' (by rw [hopened]; exact hk')
    have hless : openSince bytes start' (s.i + 1) = t + 1 := by rw [openSince_succ hstart'.le hc, hkind.2, hopen']; rfl
    refine ⟨start', ?_, Nat.lt_succ_of_lt hstart', hless, hup'.succ (by omega)⟩
    rw [getElem?_modify_ne _ _ (by rintro rfl; exact hnodup.1 (mem_of_getElem? hk')), hpair']
  · intro k' pair hk' hpair'
    by_cases hkk : k = k'
    · subst hkk
      rw [getElem?_modify_eq, hpair] at hpair'
      cases hpair'
      have hzero : openSince bytes start (s.i + 1) = 0 := by rw [openSince_succ hstart.le hc, hkind.2, hopen]
      exact ⟨hstart, Nat.lt_succ_self _, hup, hzero, hnext⟩
    · rw [getElem?_modify_ne _ _ hkk] at hpair'
      obtain ⟨hlt, hbefore, hrest⟩ := h.closed k' pair
        (by rw [hopened, mem_cons, not_or]; exact ⟨Ne.symm hkk, hk'⟩) hpair'
      exact ⟨hlt, Nat.lt_succ_of_lt hbefore, hrest⟩

theorem BracketScan.Found.step (h : s.Found bytes) (hc : bytes[s.i]? = some c) :
    (bracketStep bytes.length s c).Found bytes := by
  have hlt := lt_of_getElem? hc
  have hescaped := h.escaped
  have hinQuote := h.inQuote
  obtain ⟨hnextEscaped, hnextPhrase⟩ := next_phrase (readerAt bytes s.i) c
  rw [← readerAt_succ hc] at hnextEscaped hnextPhrase
  fun_cases bracketStep bytes.length s c
  case case5 s' hplain hslash hquoted hquote hopens =>
    exact h.push hc hopens ⟨hlt.le, by grind, by grind⟩ ⟨hlt, by grind, by grind⟩
  case case7 s' hplain hslash hquoted hquote hopens hcloses k opened hopened =>
    exact h.pop hc hcloses ⟨hlt.le, by grind, by grind⟩ ⟨hlt, by grind, by grind⟩ hopened
  all_goals refine h.pass hc rfl rfl rfl (by grind) (by grind) ?_ ?_
  all_goals grind [bracketDepth, opensBracket, closesBracket, Unquoted]

theorem bracketStep_i (s : BracketScan) : (bracketStep n s c).i = s.i + 1 := by
  unfold bracketStep
  split_ifs
  all_goals try rfl
  cases s.opened <;> rfl

theorem BracketScan.Found.foldl {rest : List Char} (h : s.Found bytes) (hrest : bytes.drop s.i = rest) :
    (rest.foldl (bracketStep bytes.length) s).Found bytes := by
  induction rest generalizing s with
  | nil => exact h
  | cons c rest ih =>
    have hc : bytes[s.i]? = some c := by rw [← head?_drop, hrest]; rfl
    refine ih (h.step hc) ?_
    rw [bracketStep_i, ← drop_drop, hrest]
    rfl

theorem foldl_bracketStep_i (s : BracketScan) (rest : List Char) :
    (rest.foldl (bracketStep n) s).i = s.i + rest.length := by
  induction rest generalizing s with
  | nil => rfl
  | cons c rest ih =>
    rw [foldl_cons, ih, bracketStep_i, length_cons]
    omega

/-- What a bracket is paired with. -/
def closeOf (bytes : List Char) (i : Nat) : Nat :=
  (((bracketPairs bytes).find? fun pair => pair.1 = i).map (·.2)).getD bytes.length

/-- It is the place up to which the bracket is open. -/
theorem closeOf_spec (hc : bytes[i]? = some c) (hopens : opensBracket c = true) (hunquoted : Unquoted bytes i) :
    i < closeOf bytes i ∧ OpenUpTo bytes i (closeOf bytes i) ∧ (closeOf bytes i = bytes.length ∨
      openSince bytes i (closeOf bytes i + 1) = 0 ∧ Unquoted bytes (closeOf bytes i + 1)) := by
  unfold closeOf
  have hstart : BracketScan.Found bytes {} := ⟨by rw [readerAt_zero], by rw [readerAt_zero], nofun, .nil, nofun, nofun⟩
  have hfound : BracketScan.Found bytes (bytes.foldl (bracketStep bytes.length) {}) := hstart.foldl rfl
  have hend : (bytes.foldl (bracketStep bytes.length) {}).i = bytes.length := by rw [foldl_bracketStep_i, Nat.zero_add]
  have hlt := lt_of_getElem? hc
  obtain ⟨pair, hpair, hi⟩ := hfound.all i c (by rw [hend]; exact hlt) hc hopens hunquoted
  cases hfind : (bracketPairs bytes).find? fun pair => pair.1 = i with
  | none => exact absurd (by simpa using hi) (find?_eq_none.mp hfind pair hpair)
  | some pair =>
    obtain rfl : pair.1 = i := by simpa using find?_some hfind
    obtain ⟨k, hk⟩ := mem_iff_getElem?.mp (mem_of_find?_eq_some hfind)
    by_cases hopen : k ∈ (bytes.foldl (bracketStep bytes.length) {}).opened
    · obtain ⟨t, ht⟩ := mem_iff_getElem?.mp hopen
      obtain ⟨start, hstart, -, -, hup⟩ := hfound.opened t k ht
      cases hk.symm.trans hstart
      rw [hend] at hup
      exact ⟨hlt, hup, .inl rfl⟩
    · obtain ⟨hafter, hbefore, hup, hzero, hclosed⟩ := hfound.closed k pair hopen hk
      exact ⟨hafter, hup, .inr ⟨hzero, hclosed⟩⟩

end Reading

section Leaf
variable {bytes : List Char} {i steps start : Nat} {inQuote : Bool} {c : Char}

def LeafReads (bytes : List Char) (i : Nat) (inQuote : Bool) : Prop :=
  i ≤ bytes.length → (readerAt bytes i).escaped = false ∧ (readerAt bytes i).phrase = inQuote

theorem openSince_eq (hle : start ≤ i) (hzero : openSince bytes start i = 0) {j : Nat} (hij : i ≤ j) :
    openSince bytes start j = openSince bytes i j := by
  induction j, hij using Nat.le_induction with
  | base => rw [hzero, openSince_of_le (Nat.le_refl i)]
  | succ j hij ih => rw [openSince, openSince, if_neg (by omega), if_neg (by omega), ih]

/-- A place in a leaf: nothing before it ends the leaf, and its brackets are closed. -/
structure InLeaf (bytes : List Char) (start i : Nat) : Prop where
  le : start ≤ i
  inside : ∀ j, start ≤ j → j < i → ¬ LeafStops bytes start j
  closed : i ≤ bytes.length → openSince bytes start i = 0

theorem InLeaf.firstStop (h : InLeaf bytes start i) (hlt : i ≤ bytes.length)
    (hstop : i = bytes.length ∨ LeafStops bytes start i) : FirstStop bytes start (min i bytes.length) := by
  rw [min_eq_left hlt]
  exact ⟨h.le, h.inside, hstop⟩

theorem InLeaf.atEnd (h : InLeaf bytes start i) (hstart : start ≤ bytes.length) (hend : bytes.length ≤ i) :
    FirstStop bytes start (min i bytes.length) := by
  rw [min_eq_right hend]
  exact ⟨hstart, fun j hle hlt => h.inside j hle (by omega), .inl rfl⟩

theorem InLeaf.next (h : InLeaf bytes start i) {j : Nat} (hij : i < j)
    (hinside : ∀ k, i ≤ k → k < j → ¬ LeafStops bytes start k)
    (hclosed : j ≤ bytes.length → openSince bytes start j = 0) : InLeaf bytes start j := by
  refine ⟨by have := h.le; omega, fun k hle hlt => ?_, hclosed⟩
  by_cases hk : k < i
  · exact h.inside k hle hk
  · exact hinside k (by omega) hlt

theorem not_leafStops (hc : bytes[i]? = some c) (hspace : isAsciiWhitespace c = false) (hparen : c ≠ ')') :
    ¬ LeafStops bytes start i := by
  rintro ⟨d, hd, hstop, -⟩
  cases hc.symm.trans hd
  simp [hspace, hparen] at hstop

theorem InLeaf.escape (h : InLeaf bytes start i) (hc : bytes[i]? = some '\\')
    (hescaped : (readerAt bytes i).escaped = false) : InLeaf bytes start (i + 2) := by
  refine h.next (by omega) (fun k hle hk => ?_) fun hle => ?_
  · rcases Nat.lt_or_eq_of_le (Nat.le_of_lt_succ hk) with hk | rfl
    · obtain rfl : k = i := by omega
      exact not_leafStops hc (by decide) (by decide)
    · rintro ⟨_, -, -, ⟨-, hnot, -⟩, -⟩
      rw [readerAt_succ hc, (next_phrase _ _).1, hescaped] at hnot
      cases hnot
  · obtain ⟨d, hd⟩ : ∃ d, bytes[i + 1]? = some d := ⟨_, getElem?_eq_getElem (by omega)⟩
    have hclosed := h.closed (by omega)
    rw [openSince_succ (by have := h.le; omega) hd, openSince_succ h.le hc, hclosed, readerAt_succ hc]
    grind [bracketDepth, next_phrase]

/-- Behind the brackets of a leaf the leaf goes on. -/
theorem InLeaf.brackets (h : InLeaf bytes start i) (hc : bytes[i]? = some c) (hopens : opensBracket c = true)
    (hunquoted : Unquoted bytes i) :
    LeafReads bytes (closeOf bytes i + 1) false ∧ InLeaf bytes start (closeOf bytes i + 1) := by
  obtain ⟨hafter, hup, hend⟩ := closeOf_spec hc hopens hunquoted
  have hclosed := h.closed hunquoted.1
  refine ⟨fun hle => ?_, h.next (by omega) (fun k hle hk => ?_) fun hle => ?_⟩
  · exact (hend.resolve_left (by omega)).2.2
  · rcases Nat.eq_or_lt_of_le hle with rfl | hk'
    · have hclass : isAsciiWhitespace c = false ∧ c ≠ ')' := by
        simp only [opensBracket, Bool.or_eq_true, decide_eq_true_eq] at hopens
        rcases hopens with (rfl | rfl) | rfl <;> decide
      exact not_leafStops hc hclass.1 hclass.2
    · rintro ⟨_, -, -, -, hzero⟩
      rw [openSince_eq h.le hclosed hle] at hzero
      have := hup k hk' (by omega)
      omega
  · rw [openSince_eq h.le hclosed (by omega), (hend.resolve_left (by omega)).1]

theorem leafLoop_spec (hstart : start ≤ bytes.length) (hsteps : bytes.length < i + steps)
    (hread : LeafReads bytes i inQuote) (h : InLeaf bytes start i) :
    let found := leafLoop bytes (bracketPairs bytes) steps i inQuote
    FirstStop bytes start (min found.1 bytes.length) ∧ (found.2 = true → bytes[found.1]? = some ')') := by
  induction steps generalizing i inQuote with
  | zero => exact ⟨h.atEnd hstart (by omega), nofun⟩
  | succ steps ih =>
    rw [leafLoop]
    cases hc : bytes[i]? with
    | none => exact ⟨h.atEnd hstart (getElem?_eq_none_iff.mp hc), nofun⟩
    | some c =>
      have hlt := lt_of_getElem? hc
      obtain ⟨hescaped, hphrase⟩ := hread hlt.le
      have hnext := next_phrase (readerAt bytes i) c
      rw [← readerAt_succ hc, hescaped, hphrase] at hnext
      have hclosed := h.closed hlt.le
      have hdepth := openSince_succ h.le hc
      rw [hclosed] at hdepth
      -- The byte is passed over: the leaf does not end before it.
      have hpass {quoted : Bool} (hreads : LeafReads bytes (i + 1) quoted) (hstop : ¬ LeafStops bytes start i)
          (hzero : openSince bytes start (i + 1) = 0) :
          let found := leafLoop bytes (bracketPairs bytes) steps (i + 1) quoted
          FirstStop bytes start (min found.1 bytes.length) ∧ (found.2 = true → bytes[found.1]? = some ')') := by
        refine ih (by omega) hreads (h.next (by omega) (fun k hle hlt => ?_) fun _ => hzero)
        obtain rfl : k = i := by omega
        exact hstop
      dsimp only
      split_ifs with hslash hquoted hquote hopens hparen hspace
      · subst hslash
        refine ih (by omega) (fun hle => ?_) (h.escape hc hescaped)
        rw [readerAt_escape hc hescaped hle]
        exact ⟨hescaped, hphrase⟩
      · refine hpass (fun _ => by grind) ?_ (by rw [hdepth, bracketDepth, if_pos (by simp [hphrase, hquoted])])
        rintro ⟨_, -, -, ⟨-, -, hnot⟩, -⟩
        rw [hphrase, hquoted] at hnot
        cases hnot
      · refine hpass (fun _ => by grind) (not_leafStops hc (by rw [hquote]; decide) (by rw [hquote]; decide)) ?_
        rw [hdepth, hquote]
        grind [bracketDepth]
      · obtain rfl : inQuote = false := by simpa using hquoted
        have hunquoted : Unquoted bytes i := ⟨hlt.le, hescaped, hphrase⟩
        have hafter := (closeOf_spec hc hopens hunquoted).1
        obtain ⟨hreads, hin⟩ := h.brackets hc hopens hunquoted
        exact ih (i := closeOf bytes i + 1) (by omega) hreads hin
      · obtain rfl : inQuote = false := by simpa using hquoted
        exact ⟨h.firstStop hlt.le (.inr ⟨c, hc, .inr hparen, ⟨hlt.le, hescaped, hphrase⟩, hclosed⟩),
          fun _ => hparen ▸ hc⟩
      · obtain rfl : inQuote = false := by simpa using hquoted
        exact ⟨h.firstStop hlt.le (.inr ⟨c, hc, .inl hspace, ⟨hlt.le, hescaped, hphrase⟩, hclosed⟩), nofun⟩
      · refine hpass (fun _ => by grind) (not_leafStops hc (by simpa using hspace) hparen) ?_
        rw [hdepth]
        simp only [opensBracket, Bool.or_eq_true, decide_eq_true_eq, not_or] at hopens
        simp only [bracketDepth, mem_cons, not_mem_nil]
        grind

theorem setEnd_iff {r : Reader} {chars after : List Char} :
    setEnd r.escaped r.phrase chars = some after ↔ ∃ inside, ClosesSet r chars inside after := by
  induction chars generalizing r with
  | nil => exact iff_of_false nofun fun ⟨inside, h⟩ => by simpa using h.text
  | cons c chars ih =>
    by_cases hclose : r.escaped = false ∧ r.phrase = false ∧ c = ']'
    · obtain ⟨hescaped, hphrase, rfl⟩ := hclose
      have hend : setEnd r.escaped r.phrase (']' :: chars) = some chars := by simp [setEnd, hescaped, hphrase]
      rw [hend, some_inj]
      constructor
      · rintro rfl
        exact ⟨[], rfl, hescaped, hphrase, by simp⟩
      · rintro ⟨inside, htext, -, -, hfirst⟩
        cases inside with
        | nil => exact (cons_eq_cons.mp htext).2
        | cons d inside =>
          obtain ⟨rfl, -⟩ := cons_eq_cons.mp htext
          have := hfirst [] inside rfl
          simp [hescaped, hphrase] at this
    · have hpass : setEnd r.escaped r.phrase (c :: chars) = setEnd (r.next c).escaped (r.next c).phrase chars := by
        have hnext := next_phrase r c
        rw [setEnd]
        grind
      rw [hpass, ih]
      constructor
      · rintro ⟨inside, rfl, hescaped, hphrase, hfirst⟩
        refine ⟨c :: inside, rfl, hescaped, hphrase, fun front back heq => ?_⟩
        cases front with
        | nil =>
          obtain ⟨rfl, -⟩ := cons_eq_cons.mp heq
          simpa [or_iff_not_imp_left] using hclose
        | cons d front =>
          obtain ⟨rfl, hinside⟩ := cons_eq_cons.mp heq
          exact hfirst front back hinside
      · rintro ⟨inside, htext, hescaped, hphrase, hfirst⟩
        cases inside with
        | nil =>
          obtain ⟨rfl, -⟩ := cons_eq_cons.mp htext
          exact absurd ⟨hescaped, hphrase, rfl⟩ hclose
        | cons d inside =>
          obtain ⟨rfl, rfl⟩ := cons_eq_cons.mp htext
          exact ⟨inside, rfl, hescaped, hphrase, fun front back heq => hfirst (c :: front) back (congrArg (cons c) heq)⟩

theorem readerAt_past {front mid back : List Char} (h : bytes = front ++ (mid ++ back)) :
    readerAt bytes (front.length + mid.length) = (readerAt bytes front.length).past mid := by
  rw [readerAt, readerAt, h, ← past_append, take_left, ← append_assoc, ← length_append, take_left]

theorem not_mem_marks_of_space (h : isAsciiWhitespace c = true) : c ∉ marks := by
  simp only [isAsciiWhitespace, mem_cons, not_mem_nil, or_false, decide_eq_true_eq] at h
  rcases h with rfl | rfl | rfl | rfl | rfl <;> decide

theorem dropWhile_space (chars : List Char) :
    ∃ gap, chars = gap ++ chars.dropWhile isAsciiWhitespace ∧ ∀ c ∈ gap, isAsciiWhitespace c = true :=
  ⟨_, takeWhile_append_dropWhile.symm, fun _ hc => mem_takeWhile_imp hc⟩

theorem dropWhile_append_solid {gap rest : List Char} (hgap : ∀ c ∈ gap, isAsciiWhitespace c = true)
    (hrest : ∀ c ∈ rest.head?, isAsciiWhitespace c = false) : (gap ++ rest).dropWhile isAsciiWhitespace = rest := by
  rw [dropWhile_append_of_pos hgap]
  cases rest with
  | nil => rfl
  | cons c rest => rw [dropWhile_cons_of_neg (by simp [hrest c rfl])]

/-- The set that follows a byte is looked for, and its end. -/
theorem inSetEnd_spec :
    (inSetEnd bytes i = none ∧ ∀ set, ¬ SetFollows (bytes.drop i) set) ∨
      ∃ set, SetFollows (bytes.drop i) set ∧
        ((∃ inside after, ClosesSet {} set inside after ∧ inSetEnd bytes i = some (bytes.length - after.length)) ∨
          (∀ inside after, ¬ ClosesSet {} set inside after) ∧ inSetEnd bytes i = some bytes.length) := by
  unfold inSetEnd
  dsimp only
  split_ifs with hset
  · obtain ⟨gap, hgap, hgapSpace⟩ := dropWhile_space (bytes.drop i)
    obtain ⟨hword, hhead⟩ := Bool.and_eq_true_iff.mp hset
    obtain ⟨tail, htail⟩ := isPrefixOf_iff_prefix.mp hword
    rw [← htail] at hhead hgap ⊢
    have hdrop : ("IN".toList ++ tail).drop 2 = tail := rfl
    rw [hdrop] at hhead ⊢
    obtain ⟨gap', hgap', hgapSpace'⟩ := dropWhile_space tail
    generalize tail.dropWhile isAsciiWhitespace = set at hhead hgap' ⊢
    refine .inr ⟨set, ⟨gap, gap', by rw [hgap, hgap'], hgapSpace, hgapSpace', by simpa using hhead⟩, ?_⟩
    cases hend : setEnd false false set with
    | none =>
      refine .inr ⟨fun inside after hcloses => ?_, rfl⟩
      have hsome : setEnd false false set = some after := setEnd_iff.mpr ⟨inside, hcloses⟩
      cases hend.symm.trans hsome
    | some after =>
      obtain ⟨inside, hcloses⟩ := (@setEnd_iff {} set after).mp hend
      exact .inl ⟨inside, after, hcloses, rfl⟩
  · refine .inl ⟨rfl, ?_⟩
    rintro set ⟨gap, gap', htext, hgap, hgap', hhead⟩
    refine hset ?_
    have hrest : (bytes.drop i).dropWhile isAsciiWhitespace = "IN".toList ++ (gap' ++ set) := by
      rw [htext]
      exact dropWhile_append_solid hgap fun c hc => by cases hc; rfl
    have hdrop : ("IN".toList ++ (gap' ++ set)).drop 2 = gap' ++ set := rfl
    have hsolid (c : Char) (hc : c ∈ set.head?) : isAsciiWhitespace c = false := by
      rw [hhead] at hc
      cases hc
      rfl
    rw [hrest, hdrop, dropWhile_append_solid hgap' hsolid, hhead]
    simp

theorem notLeafEnd_leafEnds (hstart : Unquoted bytes start) : LeafEnds bytes start (notLeafEnd bytes start) := by
  have hin : InLeaf bytes start start :=
    ⟨Nat.le_refl _, fun j hle hlt => by omega, fun _ => openSince_of_le (Nat.le_refl _)⟩
  have hloop := @leafLoop_spec bytes start (bytes.length + 1) start false hstart.1 (by omega) (fun _ => hstart.2) hin
  unfold notLeafEnd
  generalize leafLoop bytes (bracketPairs bytes) (bytes.length + 1) start false = found at hloop
  obtain ⟨i, closed⟩ := found
  obtain ⟨hfirst, hclosed⟩ := hloop
  dsimp only at hfirst hclosed ⊢
  cases closed with
  | true =>
    have hparen := hclosed rfl
    rw [min_eq_left (lt_of_getElem? hparen).le] at hfirst
    rw [if_pos rfl]
    refine .plain hfirst fun _ _ set hset => ?_
    obtain ⟨gap, gap', htext, hgap, -⟩ := hset
    have hhead : (bytes.drop i).head? = some ')' := by rw [head?_drop, hparen]
    rw [htext] at hhead
    cases gap with
    | nil => cases hhead
    | cons c gap =>
      cases hhead
      exact absurd (hgap ')' mem_cons_self) (by decide)
  | false =>
    rw [if_neg Bool.false_ne_true]
    generalize min i bytes.length = stop at hfirst
    split_ifs with hcolon
    · obtain ⟨hlt, hcolon⟩ : start < stop ∧ bytes[stop - 1]? = some ':' := by simpa using hcolon
      rcases @inSetEnd_spec bytes stop with ⟨hnone, hnot⟩ | ⟨set, hset, ⟨inside, after, hcloses, hend⟩ | ⟨hopen, hend⟩⟩
      · rw [hnone]
        exact .plain hfirst fun _ _ => hnot
      · rw [hend]
        exact .set hfirst hset hlt hcolon hcloses
      · rw [hend]
        exact .unclosed hfirst hset hlt hcolon hopen
    · exact .plain hfirst fun hlt hat => absurd (by simp [hlt, hat]) hcolon

/-- No character and no phrase is cut at a leaf's end. -/
theorem LeafEnds.spec {leafEnd : Nat} (hstart : Unquoted bytes start) (h : LeafEnds bytes start leafEnd) :
    start ≤ leafEnd ∧ (leafEnd = bytes.length ∨ Unquoted bytes leafEnd ∧
      ((∃ c, bytes[leafEnd]? = some c ∧ (isAsciiWhitespace c = true ∨ c = ')')) ∨ 0 < leafEnd ∧
      bytes[leafEnd - 1]? = some ']')) := by
  cases h with
  | plain h hplain =>
    exact ⟨h.le, h.stops.imp_right fun ⟨c, hc, hstop, hunquoted, _⟩ => ⟨hunquoted, .inl ⟨c, hc, hstop⟩⟩⟩
  | unclosed h hset hlt hcolon hopen => exact ⟨hstart.1, .inl rfl⟩
  | @set stop set inside after h hset hlt hcolon hcloses =>
    obtain ⟨gap, gap', hgap, hgapSpace, hgapSpace', -⟩ := hset
    have hi : Unquoted bytes stop := by
      rcases h.stops with rfl | ⟨_, -, -, hunquoted, -⟩
      · simp at hgap
      · exact hunquoted
    have hbytes : bytes = bytes.take stop ++ ((gap ++ ("IN".toList ++ gap')) ++ set) := by
      conv_lhs => rw [← take_append_drop stop bytes, hgap]
      simp
    have htake : (bytes.take stop).length = stop := length_take_of_le hi.1
    have hskip : readerAt bytes (stop + (gap ++ ("IN".toList ++ gap')).length) = readerAt bytes stop := by
      have := readerAt_past hbytes
      rw [htake] at this
      rw [this, past_of_not_mem _ fun _ => hi.2.1, ← hi.2.1]
      intro c hc
      simp only [mem_append] at hc
      rcases hc with hc | hc | hc
      · exact not_mem_marks_of_space (hgapSpace c hc)
      · have hword : c = 'I' ∨ c = 'N' := by simpa using hc
        rcases hword with rfl | rfl <;> decide
      · exact not_mem_marks_of_space (hgapSpace' c hc)
    generalize gap ++ ("IN".toList ++ gap') = lead at hbytes hskip
    obtain ⟨mid, rfl, hescaped, hphrase, -⟩ : ∃ mid, ClosesSet (readerAt bytes (stop + lead.length)) set mid after := by
      rw [← setEnd_iff, hskip, hi.2.1, hi.2.2]
      exact setEnd_iff.mpr ⟨inside, hcloses⟩
    have hsplit : bytes = (bytes.take stop ++ lead) ++ (mid ++ (']' :: after)) := by
      conv_lhs => rw [hbytes]
      simp
    have hfront : (bytes.take stop ++ lead).length = stop + lead.length := by rw [length_append, htake]
    have hpast := readerAt_past hsplit
    have hlength := congrArg List.length hsplit
    generalize bytes.take stop ++ lead = front at hsplit hfront hpast hlength
    rw [hfront] at hpast
    simp only [length_append, length_cons] at hlength
    have hlast : bytes[front.length + mid.length]? = some ']' := by
      rw [hsplit, ← append_assoc, ← length_append]
      simp
    have hend : bytes.length - after.length = front.length + mid.length + 1 := by omega
    have hle := h.le
    refine ⟨by omega, .inr ⟨⟨by omega, ?_⟩, .inr ⟨by omega, by rw [hend]; exact hlast⟩⟩⟩
    have hnext := next_phrase (readerAt bytes (front.length + mid.length)) ']'
    rw [← readerAt_succ hlast, hfront, hpast, hescaped, hphrase, ← hfront, ← hend] at hnext
    exact ⟨by simpa using hnext.1, by simpa using hnext.2⟩

end Leaf

end CameoDb
