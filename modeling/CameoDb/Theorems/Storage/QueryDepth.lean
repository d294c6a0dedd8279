import CameoDb.Storage.QueryDepth
import CameoDb.Theorems.Storage.NotClauses
import CameoDb.Theorems.Storage.QueryLevels

/-! # How deep a rewritten query nests

The guard is run on the query and the parser on its rewrite. Read by characters, without looking ahead, the guard
counts a `NOT` at the white space after it. -/

namespace CameoDb
open List Function Reader Load

def leadsOn (c : Char) : Bool := isSign c || c = ']' || c = '}'

/-- What has been read of the word a guard stands in: none of it, the letters of a `NOT`, or anything else. -/
inductive WordRead where
  | between
  | first
  | second
  | keyword
  | within
  deriving DecidableEq

namespace WordRead

def letter : WordRead → Char → WordRead
  | between, c => if leadsOn c then between else if c = 'N' then first else within
  | first, c => if c = 'O' then second else within
  | second, c => if c = 'T' then keyword else within
  | keyword, _ | within, _ => within

def completes : WordRead → List Char → Bool
  | between, rest => opensNot (rest.dropWhile leadsOn)
  | first, rest => opensNot ('N' :: rest)
  | second, rest => opensNot ('N' :: 'O' :: rest)
  | keyword, rest => opensNot ('N' :: 'O' :: 'T' :: rest)
  | within, _ => false

end WordRead

/-- What a character is to a guard. -/
inductive Mark where
  | nothing
  | opens
  | closes
  | blank
  | letter

def Reader.mark (r : Reader) (c : Char) : Mark :=
  if r.escaped then .nothing
  else if c = '\\' then .letter
  else if r.phrase then .nothing
  else if c = '"' ∨ c = '[' ∨ c = '{' ∨ c = ']' ∨ c = '}' then .letter
  else if r.depth > 0 then .nothing
  else if c = '(' then .opens
  else if c = ')' then .closes
  else if isAsciiWhitespace c then .blank
  else .letter

def FreeAfter (front : List Char) : Prop := (past {} (front.reverse.dropWhile isSign).tail.reverse).escaped = false

instance (front : List Char) : Decidable (FreeAfter front) := inferInstanceAs (Decidable (_ = _))

structure Guard where
  reader : Reader := {}
  word : WordRead := .between
  load : Load := {}

namespace Guard

def effect (g : Guard) (c : Char) : LevelEffect :=
  match g.reader.mark c, g.word with
  | .opens, _ => .push
  | .closes, _ => .pop
  | .blank, .between => .keep
  | .blank, .keyword => .count
  | .blank, _ => .reset
  | _, _ => .keep

def wordAfter (g : Guard) (c : Char) : WordRead :=
  match g.reader.mark c with
  | .nothing => g.word
  | .letter => g.word.letter c
  | _ => .between

def next (g : Guard) (c : Char) : Guard := ⟨g.reader.next c, g.wordAfter c, g.load.apply (g.effect c)⟩

def past (g : Guard) (chars : List Char) : Guard := chars.foldl next g

/-- Once no level is open none is opened. -/
def Quiet (g : Guard) : List Char → Prop
  | [] => True
  | c :: rest => (g.load.Idle → (g.next c).load.Idle) ∧ (g.next c).Quiet rest

instance Quiet.decidable : ∀ (g : Guard) (chars : List Char), Decidable (g.Quiet chars)
  | _, [] => inferInstanceAs (Decidable True)
  | g, c :: rest => @instDecidableAnd _ _ inferInstance (Quiet.decidable (g.next c) rest)

def Ok (g : Guard) : Prop := g.word ≠ .within → g.reader = {}

variable {g : Guard} {c : Char} {chars front back rest : List Char}

@[simp] theorem past_nil : g.past [] = g := rfl

@[simp] theorem past_cons : g.past (c :: chars) = (g.next c).past chars := rfl

@[simp] theorem past_append : g.past (front ++ back) = (g.past front).past back := foldl_append

theorem quiet_append : g.Quiet (front ++ back) ↔ g.Quiet front ∧ (g.past front).Quiet back := by
  induction front generalizing g with
  | nil => simp [Quiet]
  | cons c front ih => rw [cons_append, Quiet, Quiet, ih, past_cons, and_assoc]

@[simp] theorem reader_past : (g.past chars).reader = g.reader.past chars := by
  induction chars generalizing g with
  | nil => rfl
  | cons c chars ih => rw [past_cons, ih, Reader.past_cons, next]

end Guard

section Words
variable {w : WordRead} {c : Char} {rest : List Char} {r : Reader}

theorem letter_ne_between (h : w ≠ .between) : w.letter c ≠ .between := by
  cases w <;> grind [WordRead.letter]

theorem completes_letter (h : w.completes (c :: rest) = false) : (w.letter c).completes rest = false := by
  have hn : leadsOn 'N' = false := rfl
  cases w <;> grind [WordRead.letter, WordRead.completes, dropWhile_cons]

theorem keyword_completes (h : isAsciiWhitespace c = true) : WordRead.keyword.completes (c :: rest) = true := by
  simp [WordRead.completes, opensNot, h]

theorem mark_start (c : Char) : Reader.mark {} c ≠ .nothing := by
  grind [Reader.mark]

theorem letter_within (hc : c ∈ ['\\', '"', '[', '{']) : w.letter c = .within := by
  simp only [mem_cons, not_mem_nil, or_false] at hc
  rcases hc with rfl | rfl | rfl | rfl <;> cases w <;> decide

theorem next_start (hc : c ∉ ['\\', '"', '[', '{']) : Reader.next {} c = {} := by
  simp only [mem_cons, not_mem_nil, or_false, not_or] at hc
  obtain ⟨hslash, hquote, hopen, hbrace⟩ := hc
  simp [Reader.next, hslash, hquote, hopen, hbrace]

theorem eq_start_of_mark (h : r.mark c = .opens ∨ r.mark c = .closes ∨ r.mark c = .blank) : r = {} ∧ r.next c = {} := by
  obtain ⟨escaped, phrase, depth⟩ := r
  obtain ⟨rfl, rfl, rfl⟩ : escaped = false ∧ phrase = false ∧ depth = 0 := by grind [Reader.mark]
  grind [Reader.mark, Reader.next]

theorem mark_space (h : isAsciiWhitespace c = true) : Reader.mark {} c = .blank := by
  have hmarks := not_mem_marks_of_space h
  have hparens : c ≠ '(' ∧ c ≠ ')' := by
    constructor <;> rintro rfl <;> exact absurd h (by decide)
  simp only [Reader.marks, mem_cons, not_mem_nil, or_false, not_or] at hmarks
  simp [Reader.mark, hmarks, hparens, h]

theorem space_of_mark (h : r.mark c = .blank) : isAsciiWhitespace c = true := by
  grind [Reader.mark]

end Words

namespace Guard
variable {g : Guard} {c : Char} {chars rest : List Char} {n : Nat}

theorem next_eq (g : Guard) (c : Char) : g.next c = match g.reader.mark c with
    | .nothing => { g with reader := g.reader.next c }
    | .letter => ⟨g.reader.next c, g.word.letter c, g.load⟩
    | .opens => ⟨g.reader.next c, .between, g.load.apply .push⟩
    | .closes => ⟨g.reader.next c, .between, g.load.apply .pop⟩
    | .blank => ⟨g.reader.next c, .between, g.load.apply (g.effect c)⟩ := by
  cases hmark : g.reader.mark c <;> simp only [next, wordAfter, effect, hmark, apply]

theorem Ok.next (h : g.Ok) : (g.next c).Ok := by
  have hstart := mark_start c
  have hmarked := @eq_start_of_mark c g.reader
  intro hword
  rw [next_eq] at hword ⊢
  cases hmark : g.reader.mark c with
  | letter =>
    -- A word that goes on, or has not begun, leaves the reader where it was.
    simp only [hmark] at hword
    have hreader : g.reader = {} := h fun hwithin => by simp [hwithin, WordRead.letter] at hword
    simp only [hreader]
    exact next_start fun hc => hword (letter_within hc)
  | _ => grind [Ok]

theorem ok_start : Ok {} := fun _ => rfl

/-! ### The guard by bytes -/

/-- The characters that mean something to a guard. -/
def marks : List Char :=
  ['\\', '"', '[', '{', ']', '}', '(', ')', ' ', '\t', '\n', '\x0c', '\r', '+', '-', 'N', 'O', 'T']

theorem letter_of_not_mem {w : WordRead} (hc : c ∉ marks) : w.letter c = .within := by
  simp only [marks, mem_cons, not_mem_nil, or_false, not_or] at hc
  cases w <;> simp [WordRead.letter, leadsOn, isSign, hc]

theorem next_of_not_mem (hok : g.Ok) (hc : c ∉ marks) :
    g.next c = { g with reader := { g.reader with escaped := false }, word := .within } := by
  have hread : g.reader.next c = { g.reader with escaped := false } :=
    Reader.next_of_not_mem fun h => hc (mem_append_left (marks.drop 6) h)
  have hplain : g.reader.mark c = .nothing ∨ g.reader.mark c = .letter := by
    simp only [marks, mem_cons, not_mem_nil, or_false, not_or] at hc
    simp only [Reader.mark, isAsciiWhitespace, mem_cons, not_mem_nil, hc, or_self, decide_false,
      Bool.false_eq_true, if_false]
    split_ifs <;> simp
  rcases hplain with hmark | hmark
  · have hword : g.word = .within := by
      by_contra hword
      rw [hok hword] at hmark
      exact mark_start c hmark
    simp only [next, wordAfter, effect, hmark, hread, hword, apply]
  · simp only [next, wordAfter, effect, hmark, hread, letter_of_not_mem hc, apply]

theorem not_mem_marks_of_long (h : c.utf8Size ≠ 1) : c ∉ marks := by
  intro hc
  have hsizes : ∀ d ∈ marks, d.utf8Size = 1 := forall_iff_forall_mem.mp (by decide)
  exact h (hsizes c hc)

theorem past_charBytes (hok : g.Ok) (c : Char) : g.past (charBytes c) = g.next c := by
  unfold charBytes
  split_ifs with hone
  · rfl
  · rw [next_of_not_mem hok (not_mem_marks_of_long hone)]
    have hlong : longByte ∉ marks := not_mem_marks_of_long (by rw [utf8Size_longByte]; decide)
    have hstill : ∀ n : Nat, ({ g with reader := { g.reader with escaped := false }, word := .within } : Guard).past
        (replicate n longByte) = { g with reader := { g.reader with escaped := false }, word := .within } := by
      intro n
      induction n with
      | zero => rfl
      | succ n ih => rw [replicate_succ, past_cons, next_of_not_mem (fun h => absurd rfl h) hlong, ih]
    obtain ⟨n, hn⟩ : ∃ n, c.utf8Size = n + 1 := ⟨_, (Nat.succ_pred_eq_of_pos c.utf8Size_pos).symm⟩
    rw [hn, replicate_succ, past_cons, next_of_not_mem hok hlong, hstill]

theorem past_bytesOf (hok : g.Ok) (chars : List Char) : g.past (bytesOf chars) = g.past chars := by
  induction chars generalizing g with
  | nil => rfl
  | cons c chars ih => rw [bytesOf_cons, past_append, past_charBytes hok, ih hok.next, past_cons]

/-- The scan's state as the guard's, read character by character. -/
structure Follows (s : DepthScan) (g : Guard) (rest : List Char) : Prop where
  ok : g.Ok
  reader : g.reader = ⟨false, s.inQuote, s.valueDepth⟩
  groups : g.load.groups = s.groups
  depth : s.groups.sum = s.depth
  word : g.word = .between ∧ s.inTerm = false ∧ g.load.pending = s.pending ∧ g.load.deepest = s.deepest ∨
    (g.word ≠ .between ∧ s.inTerm = true ∧ g.load.pending = s.pending ∧ g.load.deepest = s.deepest ∧
      g.word.completes rest = false) ∨
    -- The scan counts a `NOT` before the white space after it.
    (g.word = .keyword ∧ s.inTerm = false ∧ g.load.pending + 1 = s.pending ∧
      max g.load.deepest (g.load.level + 1) = s.deepest ∧ rest.head?.any isAsciiWhitespace = true)

section Follow
variable {s s' : DepthScan}

/-- The guard has counted what the scan has, unless white space is next. -/
theorem Follows.words (h : Follows s g (c :: rest)) (hspace : isAsciiWhitespace c = false) :
    (g.word = .between ∧ s.inTerm = false ∨ g.word ≠ .between ∧ s.inTerm = true ∧ g.word.completes
    (c :: rest) = false) ∧ g.load.pending = s.pending ∧ g.load.deepest = s.deepest := by
  grind [h.word]

theorem next_escape (hescaped : g.reader.escaped = false) (d : Char) :
    (g.next '\\').next d = { g with word := .within } := by
  obtain ⟨⟨escaped, phrase, depth⟩, word, load⟩ := g
  obtain rfl : escaped = false := hescaped
  cases word <;> rfl

theorem past_keyword (hreader : g.reader = {}) (hword : g.word = .between) :
    g.past "NOT".toList = { g with word := .keyword } := by
  obtain ⟨reader, word, load⟩ := g
  obtain ⟨rfl, rfl⟩ : reader = {} ∧ word = .between := ⟨hreader, hword⟩
  rfl

section Plain
variable (h : Follows s g (c :: rest)) (hone : (depthByte s c rest).2 = 0) (hslash : c ≠ '\\')
include h hone hslash

theorem Follows.reader_next :
    (g.next c).reader = ⟨false, (depthByte s c rest).1.inQuote, (depthByte s c rest).1.valueDepth⟩ := by
  rw [next, h.reader]
  revert hone
  fun_cases depthByte s c rest <;> grind [Reader.next]

theorem Follows.groups_next :
    (g.next c).load.groups = (depthByte s c rest).1.groups ∧ (depthByte s c rest).1.groups.sum =
    (depthByte s c rest).1.depth := by
  have hgroups := h.groups
  have hdepth := h.depth
  have hpop : s.groups.tail.sum = s.groups.sum - s.groups.headD 0 := by cases s.groups <;> simp
  have hpending : c = '(' → g.load.pending = s.pending := fun hc => (h.words (hc ▸ rfl)).2.1
  rw [next_eq, h.reader]
  revert hone
  fun_cases depthByte s c rest <;> grind [Reader.mark, apply, effect]

/-- A byte alone, that is no backslash and begins no `NOT`. -/
theorem Follows.byte : Follows (depthByte s c rest).1 (g.next c) rest := by
  obtain ⟨hgroups, hdepth⟩ := h.groups_next hone hslash
  refine ⟨h.ok.next, h.reader_next hone hslash, hgroups, hdepth, ?_⟩
  have hlevel : g.load.level = s.depth + g.load.pending := by rw [level, h.groups, h.depth]
  have hinside : g.reader.mark c = .nothing → g.word = .within := by grind [h.ok, mark_start, Ok]
  have hwords := h.words
  have hletter := @letter_ne_between g.word c
  have hcompletes := @completes_letter g.word c rest
  have hkeyword := @keyword_completes c rest
  have hword := h.word
  have hmark : g.reader.mark c = Reader.mark ⟨false, s.inQuote, s.valueDepth⟩ c := by rw [h.reader]
  rw [next_eq]
  revert hone
  have hmarks := @not_mem_marks_of_space c
  have hparens : isAsciiWhitespace '(' = false ∧ isAsciiWhitespace ')' = false := ⟨rfl, rfl⟩
  fun_cases depthByte s c rest <;>
    grind [Reader.mark, Reader.marks, apply, effect, WordRead.completes, WordRead.letter, leadsOn, isSign]

end Plain

/-- One byte of the scan, and what it passes over. -/
theorem Follows.step (h : Follows s g (c :: rest)) :
    Follows (depthByte s c rest).1 ((g.next c).past (rest.take (depthByte s c rest).2))
    (rest.drop (depthByte s c rest).2) ∨ c = '\\' ∧ rest = [] := by
  by_cases hone : (depthByte s c rest).2 = 0 ∧ c ≠ '\\'
  · rw [hone.1, take_zero, drop_zero, past_nil]
    exact .inl (h.byte hone.1 hone.2)
  · have hwords := h.words
    revert hone
    fun_cases depthByte s c rest <;> intro hone
    case case1 hc =>
      cases rest with
      | nil => exact .inr ⟨hc, rfl⟩
      | cons d rest =>
        subst hc
        simp only [take_succ_cons, take_zero, drop_succ_cons, drop_zero, past_cons, past_nil]
        rw [next_escape (by rw [h.reader])]
        obtain ⟨-, hpending, hdeepest⟩ := h.words rfl
        exact .inl ⟨fun h => absurd rfl h, h.reader, h.groups, h.depth,
          .inr (.inl ⟨nofun, rfl, hpending, hdeepest, rfl⟩)⟩
    case case11 hslash hquoted hquote hopen hclose hdepth hpush hpop hspace hsign hnot =>
      obtain ⟨d, more, htext, hd⟩ := opensNot_iff.mp hnot.2
      obtain ⟨rfl, rfl⟩ : c = 'N' ∧ rest = 'O' :: 'T' :: d :: more := cons_eq_cons.mp htext
      have hreader : g.reader = {} := by
        rw [h.reader, Bool.eq_false_of_not_eq_true hquoted, Nat.eq_zero_of_not_pos hdepth]
      obtain ⟨⟨hword, -⟩ | ⟨-, hterm, -⟩, hpending, hdeepest⟩ := h.words rfl
      · have hpast : (g.next 'N').past ['O', 'T'] = { g with word := .keyword } := past_keyword hreader hword
        simp only [take_succ_cons, take_zero, drop_succ_cons, drop_zero, hpast]
        refine .inl ⟨fun _ => hreader, h.reader, h.groups, h.depth,
          .inr (.inr ⟨rfl, hnot.1, by rw [hpending], ?_, by simpa using hd⟩)⟩
        rw [level, h.groups, h.depth, hpending, hdeepest, Nat.add_assoc]
      · exact absurd (hnot.1.symm.trans hterm) (by decide)
    all_goals exact absurd ⟨rfl, by assumption⟩ hone

end Follow

theorem Follows.loop {s : DepthScan} {steps : Nat} (h : Follows s g rest) (hsteps : rest.length ≤ steps) :
    depthLoop steps s rest = (g.past rest).load.deepest := by
  have hend : ∀ {s : DepthScan} {g : Guard}, Follows s g [] → s.deepest = g.load.deepest := by
    intro s g h
    rcases h.word with ⟨-, -, -, hdeepest⟩ | ⟨-, -, -, hdeepest, -⟩ | ⟨-, -, -, -, hspace⟩
    · exact hdeepest.symm
    · exact hdeepest.symm
    · cases hspace
  induction steps generalizing s g rest with
  | zero =>
    obtain rfl := length_eq_zero_iff.mp (Nat.le_zero.mp hsteps)
    exact hend h
  | succ steps ih =>
    cases rest with
    | nil => exact hend h
    | cons c rest =>
      rw [depthLoop, past_cons]
      rcases h.step with hstep | ⟨rfl, rfl⟩
      · rw [ih hstep (by rw [length_drop]; simp at hsteps; omega), ← past_append, take_append_drop]
      · -- A backslash at the end escapes nothing.
        obtain ⟨-, -, hdeepest⟩ := h.words rfl
        have hmark : g.reader.mark '\\' = .letter := by simp [Reader.mark, h.reader]
        have hload : (g.next '\\').load = g.load := by simp only [next, effect, hmark, apply]
        rw [past_nil, hload, hdeepest]
        cases steps <;> rfl

theorem queryDepth_eq (query : List Char) : queryDepth query = (past {} query).load.deepest := by
  rw [queryDepth, ← past_bytesOf ok_start]
  exact Follows.loop ⟨ok_start, rfl, rfl, rfl, .inl ⟨rfl, rfl, rfl, rfl⟩⟩ (Nat.le_refl _)

end Guard

section Simulation
variable {wraps : List (Nat × Guard)} {g g' : Guard} {c : Char} {chars rest : List Char} {n : Nat}

def wrapLoads (wraps : List (Nat × Guard)) : List Wrap := wraps.map fun wrap => (wrap.1, wrap.2.load)

def readWraps (wraps : List (Nat × Guard)) (chars : List Char) : List (Nat × Guard) :=
  wraps.map fun wrap => (wrap.1, wrap.2.past chars)

/-- A guard on a query and one on its rewrite, in front of what is left of the query. After a wrap closes, the word
    of the query may still go on. -/
structure Sim (wraps : List (Nat × Guard)) (g g' : Guard) (rest : List Char) : Prop where
  ok : g'.Ok
  reader : g'.reader = g.reader
  word : g'.word = g.word ∨ g.word ≠ .between ∧ g'.load.pending = 0 ∧ g'.word.completes rest = false
  leaves : ∀ wrap ∈ wraps, wrap.2.reader = g.reader ∧ wrap.2.word = g.word
  levels : Levels (wrapLoads wraps) g.load g'.load

theorem Guard.effect_congr (hreader : g'.reader = g.reader) (hword : g'.word = g.word) : g'.effect c = g.effect c := by
  rw [effect, effect, hreader, hword]

theorem Sim.wrapLoads_next (h : Sim wraps g g' (c :: rest)) :
    wrapLoads (readWraps wraps [c]) = applyWraps (wrapLoads wraps) (g.effect c) := by
  rw [wrapLoads, readWraps, applyWraps, wrapLoads, map_map, map_map]
  refine map_congr_left fun wrap hwrap => ?_
  obtain ⟨hreader, hword⟩ := h.leaves wrap hwrap
  simp only [comp_apply, Guard.past_cons, Guard.past_nil, Guard.next, Guard.effect_congr hreader hword]

theorem Sim.open_of_quiet (h : Sim wraps g g' (c :: rest))
    (hquiet : ∀ wrap ∈ wraps, wrap.2.load.Idle → (wrap.2.next c).load.Idle)
    (hopens : ∀ l : Load, ¬(l.apply (g.effect c)).Idle) : ∀ wrap ∈ wrapLoads wraps, ¬wrap.2.Idle := by
  refine forall_mem_map.mpr fun wrap hwrap hidle => ?_
  obtain ⟨hreader, hword⟩ := h.leaves wrap hwrap
  have hnext := hquiet wrap hwrap hidle
  rw [Guard.next, Guard.effect_congr hreader hword] at hnext
  exact hopens _ hnext

theorem applyWraps_keep (wraps : List Wrap) : applyWraps wraps .keep = wraps := map_id _

theorem Sim.levels_next (h : Sim wraps g g' (c :: rest))
    (hquiet : ∀ wrap ∈ wraps, wrap.2.load.Idle → (wrap.2.next c).load.Idle) :
    Levels (applyWraps (wrapLoads wraps) (g.effect c)) (g.load.apply (g.effect c)) (g'.load.apply (g'.effect c)) := by
  have hopen := h.open_of_quiet hquiet
  cases hmark : g.reader.mark c with
  | nothing | letter =>
    simp only [Guard.effect, h.reader, hmark, applyWraps_keep]
    exact h.levels
  | opens =>
    simp only [Guard.effect, h.reader, hmark] at hopen ⊢
    exact h.levels.push (hopen fun _ => not_idle_push)
  | closes =>
    simp only [Guard.effect, h.reader, hmark]
    exact h.levels.pop
  | blank =>
    rcases h.word with hword | ⟨hbetween, hpending, hnot⟩
    · simp only [Guard.effect, h.reader, hmark, hword] at hopen ⊢
      cases hw : g.word with
      | between =>
        rw [applyWraps_keep]
        exact h.levels
      | keyword =>
        rw [hw] at hopen
        exact h.levels.count_both (hopen fun _ => not_idle_count)
      | first | second | within => exact h.levels.reset rfl rfl rfl
    · -- The rewrite has no `NOT` to drop, and what is left makes it read none.
      have hreset : g'.load.apply .reset = g'.load := by rw [apply, ← hpending]
      have hsame : g'.load.apply (g'.effect c) = g'.load := by
        simp only [Guard.effect, h.reader, hmark]
        cases hw : g'.word with
        | between => rfl
        | keyword =>
          rw [hw, keyword_completes (space_of_mark hmark)] at hnot
          cases hnot
        | first | second | within => exact hreset
      rw [hsame]
      simp only [Guard.effect, hmark] at hopen ⊢
      cases hw : g.word with
      | between => exact absurd hw hbetween
      | keyword =>
        rw [hw] at hopen
        exact h.levels.count (hopen fun _ => not_idle_count)
      | first | second | within => exact h.levels.reset rfl hpending rfl

theorem Sim.next (h : Sim wraps g g' (c :: rest))
    (hquiet : ∀ wrap ∈ wraps, wrap.2.load.Idle → (wrap.2.next c).load.Idle) :
    Sim (readWraps wraps [c]) (g.next c) (g'.next c) rest where
  ok := h.ok.next
  reader := by rw [Guard.next, Guard.next, h.reader]
  word := by
    simp only [Guard.next, Guard.wordAfter, h.reader]
    rcases h.word with hword | ⟨hbetween, hpending, hnot⟩
    · exact .inl (by rw [hword])
    · cases hmark : g.reader.mark c with
      | opens | closes | blank => exact .inl rfl
      | nothing =>
        have hwithin : g'.word = .within := by
          by_contra hword
          rw [← h.reader, h.ok hword] at hmark
          exact mark_start c hmark
        refine .inr ⟨hbetween, ?_, by rw [hwithin]; rfl⟩
        simpa only [Guard.effect, h.reader, hmark, apply] using hpending
      | letter =>
        refine .inr ⟨letter_ne_between hbetween, ?_, completes_letter hnot⟩
        simpa only [Guard.effect, h.reader, hmark, apply] using hpending
  leaves := forall_mem_map.mpr fun wrap hwrap => by
    obtain ⟨hreader, hword⟩ := h.leaves wrap hwrap
    simp only [Guard.past_cons, Guard.past_nil, Guard.next, Guard.wordAfter, hreader, hword, and_self]
  levels := by
    rw [h.wrapLoads_next]
    exact h.levels_next hquiet

/-! ### Runs of `NOT`s -/

def Load.counted (n : Nat) (l : Load) : Load := (fun l => l.apply .count)^[n] l

theorem Load.counted_succ (n : Nat) (l : Load) : l.counted (n + 1) = (l.counted n).apply .count :=
  iterate_succ_apply' _ _ _

theorem Load.counted_groups (n : Nat) (l : Load) : (l.counted n).groups = l.groups := by
  induction n with
  | zero => rfl
  | succ n ih => rw [counted_succ, apply, ih]

theorem Load.not_idle_counted {l : Load} (h : ¬l.Idle) (n : Nat) : ¬(l.counted n).Idle := by
  cases n with
  | zero => exact h
  | succ n =>
    rw [counted_succ]
    exact not_idle_count

def countWraps (n : Nat) (wraps : List Wrap) : List Wrap := wraps.map fun wrap => (wrap.1, wrap.2.counted n)

theorem applyWraps_countWraps (n : Nat) (wraps : List Wrap) :
    applyWraps (countWraps n wraps) .count = countWraps (n + 1) wraps := by
  simp only [applyWraps, countWraps, map_map]
  refine map_congr_left fun wrap _ => ?_
  rw [comp_apply, counted_succ]

theorem not_idle_countWraps {wraps : List Wrap} (h : ∀ wrap ∈ wraps, ¬wrap.2.Idle) (n : Nat) :
    ∀ wrap ∈ countWraps n wraps, ¬wrap.2.Idle :=
  forall_mem_map.mpr fun wrap hwrap => not_idle_counted (h wrap hwrap) n

/-- The query counts a run of `NOT`s. -/
theorem Levels.counts {wraps : List Wrap} {l l' : Load} (h : Levels wraps l l')
    (hopen : ∀ wrap ∈ wraps, ¬wrap.2.Idle) (n : Nat) : Levels (countWraps n wraps) (l.counted n) l' := by
  induction n with
  | zero =>
    have hnone : countWraps 0 wraps = wraps := map_id _
    rw [hnone]
    exact h
  | succ n ih =>
    rw [counted_succ, ← applyWraps_countWraps]
    exact ih.count (not_idle_countWraps hopen n)

namespace Guard

theorem past_gap (hreader : g.reader = {}) (hword : g.word = .between)
    (hgap : ∀ c ∈ chars, isAsciiWhitespace c = true) : g.past chars = g := by
  induction chars with
  | nil => rfl
  | cons c chars ih =>
    have hmark : g.reader.mark c = .blank := by rw [hreader, mark_space (hgap c mem_cons_self)]
    have hnext : g.next c = g := by
      simp only [next, wordAfter, effect, hmark, hword, apply, (eq_start_of_mark (.inr (.inr hmark))).2]
      rw [← hreader, ← hword]
    rw [past_cons, hnext]
    exact ih fun d hd => hgap d (mem_cons_of_mem _ hd)

theorem next_counts (hreader : g.reader = {}) (hc : isAsciiWhitespace c = true) :
    ({ g with word := .keyword } : Guard).next c = ⟨{}, .between, g.load.apply .count⟩ := by
  have hmark : g.reader.mark c = .blank := by rw [hreader, mark_space hc]
  simp only [next, wordAfter, effect, hmark, (eq_start_of_mark (.inr (.inr hmark))).2]

theorem past_notRun (hreader : g.reader = {}) (hword : g.word = .between) (h : IsNotRun n chars) :
    g.past chars = ⟨{}, .between, g.load.counted n⟩ := by
  induction h generalizing g with
  | nil =>
    obtain ⟨reader, word, load⟩ := g
    obtain ⟨rfl, rfl⟩ : reader = {} ∧ word = .between := ⟨hreader, hword⟩
    rfl
  | @cons n gap more hgap hne hmore ih =>
    obtain ⟨c, gap, rfl⟩ := exists_cons_of_ne_nil hne
    rw [past_append, past_keyword hreader hword, cons_append, past_cons, next_counts hreader (hgap c mem_cons_self),
      past_append, past_gap rfl rfl fun d hd => hgap d (mem_cons_of_mem _ hd), ih rfl rfl]
    rfl

theorem Quiet.not_idle (hreader : g.reader = {}) (hword : g.word = .between) (h : IsNotRun (n + 1) chars)
    (hquiet : g.Quiet chars) : ¬g.load.Idle := by
  cases h with
  | @cons _ gap more hgap hne hmore =>
    obtain ⟨c, gap, rfl⟩ := exists_cons_of_ne_nil hne
    rw [quiet_append, past_keyword hreader hword] at hquiet
    intro hidle
    have hnext := hquiet.2.1 hidle
    rw [next_counts hreader (hgap c mem_cons_self)] at hnext
    exact not_idle_count hnext

end Guard

section Run
variable {words out : List Char} {g'' : Guard}

theorem Sim.wrapLoads_run (h : Sim wraps g g' rest) (hreader : g.reader = {}) (hword : g.word = .between)
    (hrun : IsNotRun n words) : wrapLoads (readWraps wraps words) = countWraps n (wrapLoads wraps) := by
  simp only [wrapLoads, readWraps, countWraps, map_map]
  refine map_congr_left fun wrap hwrap => ?_
  obtain ⟨hsame, hsameWord⟩ := h.leaves wrap hwrap
  simp only [comp_apply, Guard.past_notRun (hsame.trans hreader) (hsameWord.trans hword) hrun]

theorem Sim.open_of_run (h : Sim wraps g g' rest) (hreader : g.reader = {}) (hword : g.word = .between)
    (hrun : IsNotRun (n + 1) words)
    (hquiet : ∀ wrap ∈ wraps, wrap.2.Quiet words) : ∀ wrap ∈ wrapLoads wraps, ¬wrap.2.Idle :=
  forall_mem_map.mpr fun wrap hwrap =>
    (hquiet wrap hwrap).not_idle ((h.leaves wrap hwrap).1.trans hreader) ((h.leaves wrap hwrap).2.trans hword) hrun

theorem Sim.of_run (h : Sim wraps g g' rest) (hreader : g.reader = {}) (hword : g.word = .between)
    (hrun : IsNotRun n words) (hreader' : g''.reader = {}) (hword' : g''.word = .between)
    (hlevels : Levels (countWraps n (wrapLoads wraps)) (g.load.counted n) g''.load) (rest' : List Char) :
    Sim (readWraps wraps words) (g.past words) g'' rest' := by
  have hpast := Guard.past_notRun hreader hword hrun
  refine ⟨fun _ => hreader',
    by rw [hpast, hreader'], .inl (by rw [hpast, hword']), forall_mem_map.mpr fun wrap hwrap => ?_, ?_⟩
  · rw [hpast, Guard.past_notRun ((h.leaves wrap hwrap).1.trans hreader) ((h.leaves wrap hwrap).2.trans hword) hrun]
    exact ⟨rfl, rfl⟩
  · rw [hpast, h.wrapLoads_run hreader hword hrun]
    exact hlevels

/-- In front of a word the rewrite is there too. -/
theorem Sim.word_eq (h : Sim wraps g g' rest) (hword : g.word = .between) : g'.word = .between :=
  h.word.elim (fun h => h.trans hword) fun h => absurd hword h.1

theorem Sim.write {form : NotForm} (h : Sim wraps g g' rest) (hreader : g.reader = {}) (hword : g.word = .between)
    (hrun : IsNotRun (n + 1) words) (hquiet : ∀ wrap ∈ wraps, wrap.2.Quiet words)
    (hform : ∀ leafEnd, form ≠ .group leafEnd)
    (rest' : List Char) : Sim (readWraps wraps words) (g.past words) (g'.past form.text) rest' := by
  have hcounts := h.levels.counts (h.open_of_run hreader hword hrun hquiet) (n + 1)
  have hreader' := h.reader.trans hreader
  have hword' := h.word_eq hword
  obtain ⟨reader, word, load⟩ := g'
  obtain ⟨rfl, rfl⟩ : reader = {} ∧ word = .between := ⟨hreader', hword'⟩
  cases form with
  | group leafEnd => exact absurd rfl (hform leafEnd)
  | minus | nothing => exact h.of_run hreader hword hrun rfl rfl hcounts rest'
  | and =>
    have htext : Guard.past ⟨{}, .between, load⟩ NotForm.and.text = ⟨{}, .between, load.apply .reset⟩ := rfl
    have hless : Levels (countWraps (n + 1) (wrapLoads wraps)) (g.load.counted (n + 1)) (load.apply .reset) :=
      hcounts.mono_right rfl (Nat.zero_le _) (Nat.le_refl _)
    rw [htext]
    exact h.of_run hreader hword hrun rfl rfl hless rest'

theorem Sim.openWrap (h : Sim wraps g g' rest) (hreader : g.reader = {}) (hword : g.word = .between)
    (hrun : IsNotRun (n + 1) words) (hquiet : ∀ wrap ∈ wraps, wrap.2.Quiet words) (rest' : List Char) :
    Sim ((g.load.groups.length, { load := { pending := 1 } }) :: readWraps wraps words) (g.past words)
    (g'.past "(* -".toList) rest' := by
  have hopen := h.open_of_run hreader hword hrun hquiet
  have hcounts := (h.levels.counts hopen n).wrap (not_idle_countWraps hopen n)
  have hpast := Guard.past_notRun hreader hword hrun
  have htext : g'.past "(* -".toList = ⟨{}, .between, g'.load.apply .push⟩ := by
    have hreader' := h.reader.trans hreader
    have hword' := h.word_eq hword
    obtain ⟨reader, word, load⟩ := g'
    obtain ⟨rfl, rfl⟩ : reader = {} ∧ word = .between := ⟨hreader', hword'⟩
    rfl
  rw [htext]
  refine ⟨fun _ => rfl, by rw [hpast], .inl (by rw [hpast]), forall_mem_cons.mpr ⟨by rw [hpast]; exact ⟨rfl, rfl⟩,
    forall_mem_map.mpr fun wrap hwrap => ?_⟩, ?_⟩
  · rw [hpast, Guard.past_notRun ((h.leaves wrap hwrap).1.trans hreader) ((h.leaves wrap hwrap).2.trans hword) hrun]
    exact ⟨rfl, rfl⟩
  · rw [counted_groups, applyWraps_countWraps, ← counted_succ, ← h.wrapLoads_run hreader hword hrun] at hcounts
    rw [hpast]
    exact hcounts

theorem Sim.closeWrap {wrap : Nat × Guard} (h : Sim (wrap :: wraps) g g' rest) (hreader : g.reader = {})
    (hnot : WordRead.between.completes rest = false) : Sim wraps g (g'.next ')') rest := by
  have hmark : g'.reader.mark ')' = .closes := by rw [h.reader, hreader]; rfl
  have hnext : g'.next ')' = ⟨{}, .between, g'.load.apply .pop⟩ := by
    simp only [Guard.next, Guard.wordAfter, Guard.effect, hmark, (eq_start_of_mark (.inr (.inl hmark))).2]
  rw [hnext]
  refine ⟨fun _ => rfl, hreader.symm, ?_, fun other hother => h.leaves other (mem_cons_of_mem _ hother), h.levels.close⟩
  by_cases hword : g.word = .between
  · exact .inl hword.symm
  · exact .inr ⟨hword, rfl, hnot⟩

end Run

end Simulation

section Runs
variable {query : List Char}

/-- A run as the guard sees it: in front of a word, with a leaf that opens no level once its first word or group has
    ended, and ends where no `NOT` begins. -/
structure NotRun.Seen (query : List Char) (run : NotRun) : Prop where
  many : 0 < run.count
  start : ∀ front back, query = front ++ back → byteLength front = run.start →
    (Guard.past {} front).reader = {} ∧ (Guard.past {} front).word = .between
  quiet : ∀ front leaf back, query = front ++ (leaf ++ back) → byteLength front = run.stop →
    run.form = .group (run.stop + byteLength leaf) → Guard.Quiet { load := { pending := 1 } } leaf
  ends : ∀ front back, query = front ++ back → back ≠ [] → run.form = .group (byteLength front) →
    past {} front = {} ∧ WordRead.between.completes back = false

theorem IsNotRun.ne_nil {n : Nat} {words : List Char} (h : IsNotRun n words) (hn : 0 < n) : words ≠ [] := by
  cases h with
  | nil => exact absurd hn (Nat.lt_irrefl 0)
  | cons => simp

variable {runs : List NotRun} {place : Nat} {source out : List Char} {init : List Char} {c : Char}

/-- Nothing is written for no text. -/
theorem Rewrites.eq_nil (h : Rewrites place source out runs) (hruns : ∀ run ∈ runs, run.Seen query)
    (hsource : source = []) : out = [] := by
  cases h with
  | nil => rfl
  | copy => cases hsource
  | write hwords hstop hsuits hform hrest | group hwords hstop hsuits hform hleaf hend hrest =>
    exact absurd (append_eq_nil_iff.mp hsource).1 (hwords.ne_nil (hruns _ mem_cons_self).many)

theorem deepest_close (g : Guard) : (g.next ')').load.deepest = g.load.deepest := by
  simp only [Guard.next, Guard.effect]
  have hmark : g.reader.mark ')' = .nothing ∨ g.reader.mark ')' = .closes := by
    unfold Reader.mark
    split_ifs <;> simp_all
  rcases hmark with hmark | hmark <;> rw [hmark] <;> rfl

theorem readWraps_append (wraps : List (Nat × Guard)) (front back : List Char) :
    readWraps wraps (front ++ back) = readWraps (readWraps wraps front) back := by
  simp only [readWraps, map_map]
  refine map_congr_left fun wrap _ => ?_
  rw [comp_apply, Guard.past_append]

theorem Rewrites.sim (h : Rewrites place source out runs) (hruns : ∀ run ∈ runs, run.Seen query)
    {done after : List Char}
    {wraps : List (Nat × Guard)} {g' : Guard} (hquery : query = done ++ (source ++ after))
    (hplace : byteLength done = place)
    (hsim : Sim wraps (Guard.past {} done) g' (source ++ after)) (hquiet : ∀ wrap ∈ wraps, wrap.2.Quiet source) :
    (g'.past out).load.deepest ≤ (Guard.past {} (done ++ source)).load.deepest ∧
      (after ≠ [] → Sim (readWraps wraps source) (Guard.past {} (done ++ source)) (g'.past out) after) := by
  induction h generalizing done after wraps g' with
  | nil =>
    have hnone : readWraps wraps [] = wraps := map_id _
    rw [hnone, append_nil]
    exact ⟨hsim.levels.deepest, fun _ => hsim⟩
  | @copy place c source out runs hrest ih =>
    have hnext := hsim.next fun wrap hwrap => (hquiet wrap hwrap).1
    have hdone : Guard.past {} (done ++ [c]) = (Guard.past {} done).next c := by
      rw [Guard.past_append, Guard.past_cons, Guard.past_nil]
    rw [← hdone] at hnext
    have hrest := @ih hruns (done ++ [c]) after _ _ (by simpa using hquery) (by simp [hplace]) hnext
      (forall_mem_map.mpr fun wrap hwrap => (hquiet wrap hwrap).2)
    rw [← readWraps_append] at hrest
    simpa using hrest
  | @write run words source out runs hwords hstop hsuits hform hrest ih =>
    have hseen := hruns run mem_cons_self
    obtain ⟨hreader, hword⟩ := hseen.start done _ hquery hplace
    obtain ⟨n, hn⟩ : ∃ n, run.count = n + 1 := ⟨_, (Nat.succ_pred_eq_of_pos hseen.many).symm⟩
    rw [hn] at hwords
    have hwrite := hsim.write hreader hword hwords
      (fun wrap hwrap => (Guard.quiet_append.mp (hquiet wrap hwrap)).1) hform
      (source ++ after)
    rw [← Guard.past_append] at hwrite
    have hrest := @ih (fun other hother => hruns other (mem_cons_of_mem _ hother)) (done ++ words) after _ _
      (by simpa using hquery) (by simp [hplace, hstop]) hwrite
      (forall_mem_map.mpr fun wrap hwrap => (Guard.quiet_append.mp (hquiet wrap hwrap)).2)
    rw [← readWraps_append, append_assoc] at hrest
    rwa [Guard.past_append]
  | @group run words leaf leafOut source out inner runs leafEnd hwords hstop hsuits hform hleaf hend hrest ihLeaf ih =>
    have hseen := hruns run mem_cons_self
    have hlater : ∀ other ∈ inner ++ runs, other.Seen query := fun other hother =>
      hruns other (mem_cons_of_mem _ hother)
    obtain ⟨hreader, hword⟩ := hseen.start done _ hquery hplace
    obtain ⟨n, hn⟩ : ∃ n, run.count = n + 1 := ⟨_, (Nat.succ_pred_eq_of_pos hseen.many).symm⟩
    rw [hn] at hwords
    have hquiets : ∀ wrap ∈ wraps, wrap.2.Quiet words ∧ (wrap.2.past words).Quiet leaf ∧
        (wrap.2.past (words ++ leaf)).Quiet source := by
      intro wrap hwrap
      have hall := hquiet wrap hwrap
      rw [Guard.quiet_append, Guard.quiet_append] at hall
      exact ⟨hall.1, hall.2.1, by rw [Guard.past_append]; exact hall.2.2⟩
    have hlength : byteLength (done ++ words) = run.stop := by simp [hplace, hstop]
    have hopen := hsim.openWrap hreader hword hwords (fun wrap hwrap => (hquiets wrap hwrap).1)
      (leaf ++ (source ++ after))
    rw [← Guard.past_append] at hopen
    have hsplit : query = done ++ words ++ (leaf ++ (source ++ after)) := by simpa using hquery
    obtain ⟨hdeepest, hends⟩ := @ihLeaf (fun other hother => hlater other (mem_append_left _ hother)) (done ++ words)
      (source ++ after) _ _ hsplit hlength hopen
      (forall_mem_cons.mpr ⟨hseen.quiet _ leaf _ hsplit hlength (by rw [hend, hform]),
        forall_mem_map.mpr fun wrap hwrap => (hquiets wrap hwrap).2.1⟩)
    by_cases hlast : source ++ after = []
    · -- Whatever is still open there, nothing is read after the end.
      obtain ⟨rfl, rfl⟩ := append_eq_nil_iff.mp hlast
      rw [hrest.eq_nil (fun other hother => hlater other (mem_append_right _ hother)) rfl,
        Guard.past_append, Guard.past_append,
        Guard.past_cons, Guard.past_nil, deepest_close, append_nil, ← append_assoc]
      exact ⟨hdeepest, fun h => absurd rfl h⟩
    · have hplaceEnd : byteLength (done ++ words ++ leaf) = leafEnd := by rw [byteLength_append, hlength, hend]
      have hsplitEnd : query = done ++ words ++ leaf ++ (source ++ after) := by simpa using hquery
      obtain ⟨houtside, hnot⟩ := hseen.ends _ _ hsplitEnd hlast (by rw [hplaceEnd, hform])
      have hclose : Sim (readWraps (readWraps wraps words) leaf) _ _ _ :=
        (hends hlast).closeWrap (by rw [Guard.reader_past, houtside]) hnot
      rw [← readWraps_append] at hclose
      have hrest := @ih (fun other hother => hlater other (mem_append_right _ hother)) (done ++ words ++ leaf) after _ _
        hsplitEnd hplaceEnd hclose (forall_mem_map.mpr fun wrap hwrap => (hquiets wrap hwrap).2.2)
      rw [← readWraps_append, append_assoc, append_assoc, append_assoc] at hrest
      rwa [Guard.past_append, Guard.past_append, Guard.past_cons]

/-- The guard counts a run for as long as its group is open: it takes the run for an operator, the leaf opens no
    level once its first word or group has ended, and no `NOT` is glued to the leaf's end. -/
structure NotRun.Counted (query : List Char) (run : NotRun) : Prop where
  free : ∀ front back, splitBytes query run.start = some (front, back) → FreeAfter front
  quiet : ∀ leafEnd leaf, run.form = .group leafEnd → slice query run.stop leafEnd = some leaf →
    Guard.Quiet { load := { pending := 1 } } leaf
  ends : ∀ leafEnd front back, run.form = .group leafEnd → splitBytes query leafEnd = some (front, back) →
    WordRead.between.completes back = false

/-- The guard counts every negation that is rewritten. -/
def GuardCounts (query : List Char) : Prop :=
  LeavesNest query ∧ ∀ runs, notRuns query = some runs → ∀ run ∈ runs, run.Counted query

theorem word_after_separator {d : Char} (hread : past {} (init ++ [d]) = {})
    (hescaped : (past {} init).escaped = false) (hd : isAsciiWhitespace d = true ∨ d = '(' ∨ d = ')') :
    (Guard.past {} (init ++ [d])).word = .between := by
  have hmarks : d ∉ Reader.marks := by
    rcases hd with hd | rfl | rfl
    · exact not_mem_marks_of_space hd
    · decide
    · decide
  rw [past_append, Reader.past_cons, past_nil, Reader.next_of_not_mem hmarks] at hread
  have hinit : past {} init = {} :=
    eq_start (congrArg phrase hread) (congrArg depth hread) hescaped
  have hmark : Reader.mark {} d = .blank ∨ Reader.mark {} d = .opens ∨ Reader.mark {} d = .closes := by
    rcases hd with hd | rfl | rfl
    · exact .inl (mark_space hd)
    · exact .inr (.inl rfl)
    · exact .inr (.inr rfl)
  simp only [Guard.past_append, Guard.past_cons, Guard.past_nil, Guard.next, Guard.wordAfter, Guard.reader_past, hinit]
  rcases hmark with hmark | hmark | hmark <;> rw [hmark]

theorem reverse_bytesOf (init : List Char) (c : Char) :
    (bytesOf (init ++ [c])).reverse = c :: (bytesOf init).reverse ∨ ∃ rest, (bytesOf (init ++ [c])).reverse =
    longByte :: rest := by
  rw [bytesOf_append, bytesOf_cons, bytesOf_nil, append_nil, reverse_append, charBytes]
  split_ifs with hone
  · exact .inl rfl
  · obtain ⟨n, hn⟩ : ∃ n, c.utf8Size = n + 1 := ⟨_, (Nat.succ_pred_eq_of_pos c.utf8Size_pos).symm⟩
    rw [hn, reverse_replicate, replicate_succ]
    exact .inr ⟨_, rfl⟩

theorem isSign_iff : isSign c = true ↔ c = '+' ∨ c = '-' := by
  rw [isSign, Bool.or_eq_true, decide_eq_true_eq, decide_eq_true_eq]

theorem word_after_sign (hread : past {} (init ++ [c]) = {}) (hsign : isSign c = true)
    (hoccur : signIsOccur (bytesOf init).reverse = true) (hfree : FreeAfter (init ++ [c])) :
    (Guard.past {} (init ++ [c])).word = .between := by
  have hmarks : c ∉ Reader.marks := by
    rcases isSign_iff.mp hsign with rfl | rfl <;> decide
  have hletter : Reader.mark {} c = .letter ∧ WordRead.between.letter c = .between := by
    rcases isSign_iff.mp hsign with rfl | rfl <;> exact ⟨rfl, rfl⟩
  rw [past_append, Reader.past_cons, past_nil, Reader.next_of_not_mem hmarks] at hread
  suffices hinit : (past {} init).escaped = false ∧ (Guard.past {} init).word = .between by
    have hstart : past {} init = {} :=
      eq_start (congrArg phrase hread) (congrArg depth hread) hinit.1
    simp only [Guard.past_append, Guard.past_cons, Guard.past_nil, Guard.next, Guard.wordAfter, Guard.reader_past,
      hstart, hletter, hinit.2]
  rcases eq_nil_or_concat' init with rfl | ⟨init, d, rfl⟩
  · exact ⟨rfl, rfl⟩
  rcases reverse_bytesOf init d with hreverse | ⟨rest, hreverse⟩
  · have hd : isAsciiWhitespace d = true ∨ d = '(' ∨ d = ')' := by
      rw [signIsOccur, hreverse] at hoccur
      simpa [or_assoc] using hoccur
    have hnot : isSign d = false := by
      rw [← Bool.not_eq_true, isSign_iff]
      rintro (rfl | rfl) <;> exact absurd hd (by decide)
    have hescaped : (past {} (init ++ [d])).escaped = false := by
      rw [past_append, Reader.past_cons, past_nil, next_escaped, Bool.and_eq_false_iff]
      right
      rw [decide_eq_false_iff_not]
      rintro rfl
      exact absurd hd (by decide)
    refine ⟨hescaped, word_after_separator ?_ (by simpa [FreeAfter, hsign, hnot] using hfree) hd⟩
    exact eq_start (congrArg phrase hread) (congrArg depth hread) hescaped
  · rw [signIsOccur, hreverse, head?_cons] at hoccur
    exact absurd hoccur (by decide)

theorem word_of_context {front back : List Char} (hquery : query = front ++ back) (hread : past {} front = {})
    (hcontext : (notContext (bytesOf query) (byteLength front)).isSome = true) (hfree : FreeAfter front) :
    (Guard.past {} front).word = .between := by
  have htake : (bytesOf query).take (byteLength front) = bytesOf front := by
    rw [hquery, bytesOf_append, ← length_bytesOf, take_left]
  rw [notContext, htake] at hcontext
  rcases eq_nil_or_concat' front with rfl | ⟨init, c, rfl⟩
  · rfl
  rcases reverse_bytesOf init c with hreverse | ⟨rest, hreverse⟩
  · rw [hreverse] at hcontext
    by_cases hseparates : (isAsciiWhitespace c || c = '(') = true
    · have hsign : isSign c = false := by
        rw [← Bool.not_eq_true, isSign_iff]
        rintro (rfl | rfl) <;> exact absurd hseparates (by decide)
      refine word_after_separator hread (by simpa [FreeAfter, hsign] using hfree) ?_
      simp only [Bool.or_eq_true, decide_eq_true_eq] at hseparates
      exact hseparates.imp id .inl
    · obtain ⟨hsign, hoccur⟩ : isSign c = true ∧ signIsOccur (bytesOf init).reverse = true := by
        dsimp only at hcontext
        rw [if_neg hseparates] at hcontext
        split_ifs at hcontext with hsign hoccur
        · exact ⟨hsign, hoccur⟩
        · cases hcontext
        · cases hcontext
      exact word_after_sign hread hsign hoccur hfree
  · rw [hreverse] at hcontext
    exact absurd hcontext
      (by simp [show isAsciiWhitespace longByte = false from rfl, show isSign longByte = false from rfl]; decide)

theorem NotRun.seen {run : NotRun} {out : List Char} (hrun : run ∈ runs) (hwell : run.Well query)
    (hcounted : run.Counted query) (hsafe : SafelyRewritten query out runs) : run.Seen query where
  many := hwell.many
  start front back hquery hfront := by
    have hread : past {} front = {} :=
      hsafe.plain run hrun front back hquery hfront.ge (hfront.trans_le hwell.start_lt_stop.le)
    refine ⟨by rw [Guard.reader_past, hread], word_of_context hquery hread (by rw [hfront]; exact hwell.context) ?_⟩
    exact hcounted.free front back (splitBytes_eq_some_iff.mpr ⟨hquery, hfront⟩)
  quiet front leaf back hquery hfront hform :=
    hcounted.quiet _ leaf hform (slice_eq_some_iff.mpr ⟨front, back, by simpa using hquery, hfront, rfl⟩)
  ends front back hquery hback hform := by
    obtain ⟨c, back, rfl⟩ := exists_cons_of_ne_nil hback
    exact ⟨hsafe.leaves run hrun front c back hquery hform,
      hcounted.ends _ front _ hform (splitBytes_eq_some_iff.mpr ⟨hquery, rfl⟩)⟩

theorem GuardCounts.queryDepth_le (h : GuardCounts query) :
    ∃ out, normalizeNotClauses query = some out ∧ queryDepth out ≤ queryDepth query := by
  obtain ⟨out, runs, hout, hruns, hsafe⟩ := h.1.safelyRewritten
  obtain ⟨runs', hruns', hwell, -⟩ := notRuns_spec query
  obtain rfl := Option.some_inj.mp (hruns.symm.trans hruns')
  have hseen : ∀ run ∈ runs, run.Seen query :=
    fun run hrun => NotRun.seen hrun (hwell run hrun) (h.2 runs hruns run hrun) hsafe
  have hlevels : Levels [] {} {} :=
    ⟨Nat.le_refl _, by simp, .nil, .inl rfl, fun _ _ => by simp [bottomSum], fun _ => Nat.le_refl _⟩
  have hstart : Sim [] (Guard.past {} []) {} (query ++ []) := ⟨Guard.ok_start, rfl, .inl rfl, by simp, hlevels⟩
  have hsim := hsafe.rewrites.sim hseen (by simp) rfl hstart (by simp)
  refine ⟨out, hout, ?_⟩
  rw [Guard.queryDepth_eq, Guard.queryDepth_eq]
  exact hsim.1

/-- What the guard admits nests no deeper than the limit when it is rewritten, as long as the guard counts what the
    rewrite opens. -/
theorem queryDepth_bounded (query : List Char) (h : GuardCounts query) :
    (∃ out, normalizeNotClauses query = some out ∧ queryDepth out ≤ queryDepth query) ∧
      ∀ raw text, foldUntokenizableWhitespace raw = query → guardQuery raw = .ok text →
        ∃ out, text = some out ∧ queryDepth out ≤ maxQueryDepth := by
  obtain ⟨out, hout, hle⟩ := h.queryDepth_le
  refine ⟨⟨out, hout, hle⟩, fun raw text hraw hguard => ?_⟩
  rw [guardQuery, hraw] at hguard
  split_ifs at hguard with hdepth
  obtain rfl := Except.ok.inj hguard
  exact ⟨out, hout, hle.trans (Nat.le_of_not_lt hdepth)⟩

/-- A `NOT` after `OR`, with a group for its leaf. -/
theorem queryDepth_bounded_or : GuardCounts "a OR NOT (b)".toList ∧
    ∃ out, normalizeNotClauses "a OR NOT (b)".toList = some out ∧
    queryDepth out ≤ queryDepth "a OR NOT (b)".toList := by
  have hruns : notRuns "a OR NOT (b)".toList = some [⟨5, 9, 1, .group 12⟩] := by decide +kernel
  have hcounts : GuardCounts "a OR NOT (b)".toList := by
    refine ⟨fun runs h => ?_, fun runs h => ?_⟩
    all_goals obtain rfl := Option.some_inj.mp (hruns.symm.trans h)
    · refine ⟨pairwise_singleton _ _, forall_mem_singleton.mpr fun front c back hquery hform => ?_⟩
      have hlength := congrArg byteLength hquery
      rw [byteLength_append, byteLength_cons, ← NotForm.group.inj hform] at hlength
      have hall : byteLength "a OR NOT (b)".toList = 12 := by decide
      have := c.utf8Size_pos
      omega
    · refine forall_mem_singleton.mpr ⟨fun front back hsplit => ?_, fun leafEnd leaf hform hslice => ?_,
        fun leafEnd front back hform hsplit => ?_⟩
      · have hcut : splitBytes "a OR NOT (b)".toList 5 = some ("a OR ".toList, "NOT (b)".toList) := by decide +kernel
        obtain ⟨rfl, rfl⟩ := Prod.mk.inj (Option.some_inj.mp (hcut.symm.trans hsplit))
        decide +kernel
      · obtain rfl := NotForm.group.inj hform
        have hcut : slice "a OR NOT (b)".toList 9 12 = some "(b)".toList := by decide +kernel
        obtain rfl := Option.some_inj.mp (hcut.symm.trans hslice)
        decide +kernel
      · obtain rfl := NotForm.group.inj hform
        have hcut : splitBytes "a OR NOT (b)".toList 12 = some ("a OR NOT (b)".toList, []) := by decide +kernel
        obtain ⟨rfl, rfl⟩ := Prod.mk.inj (Option.some_inj.mp (hcut.symm.trans hsplit))
        rfl
  exact ⟨hcounts, (queryDepth_bounded _ hcounts).1⟩

/-- An escaped parenthesis in front of a `NOT`, a leaf of two groups, and a `NOT` glued to a set: the rewrite is
    deeper, and past the limit where the query is at it. -/
theorem queryDepth_grows :
    normalizeNotClauses "\\(NOT b".toList = some "\\((* -b)".toList ∧ queryDepth "\\(NOT b".toList = 0 ∧
      queryDepth "\\((* -b)".toList = 1 ∧
    normalizeNotClauses "NOT (a)((b))".toList = some "(* -(a)((b)))".toList ∧ queryDepth "NOT (a)((b))".toList = 2 ∧
      queryDepth "(* -(a)((b)))".toList = 3 ∧
    normalizeNotClauses "NOT x: IN [a]NOT (b)".toList = some "(* -x: IN [a])NOT (b)".toList ∧
      queryDepth "NOT x: IN [a]NOT (b)".toList = 1 ∧ queryDepth "(* -x: IN [a])NOT (b)".toList = 2 ∧
    guardQuery (replicate 64 '(' ++ "\\(NOT b".toList) = .ok (some (replicate 64 '(' ++ "\\((* -b)".toList)) ∧
      queryDepth (replicate 64 '(' ++ "\\((* -b)".toList) = 65 := by
  refine ⟨?_, ?_, ?_, ?_, ?_, ?_, ?_, ?_, ?_, ?_, ?_⟩ <;> decide +kernel

end Runs

end CameoDb
