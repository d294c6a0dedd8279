import CameoDb.Theorems.Storage.NotLeaves

/-! # What the rewrite of `NOT` clauses changes

A rewritten `NOT` that opens a group is closed at the end of its leaf. The leaf is found by one scan and read by
another, and the two need not agree on where a leaf ends. -/

namespace CameoDb
open List Option Reader

/-- So many `NOT`s with white space after each. -/
inductive IsNotRun : Nat → List Char → Prop
  | nil : IsNotRun 0 []
  | cons {count : Nat} {gap more : List Char} (hgap : ∀ c ∈ gap, isAsciiWhitespace c = true) (hne : gap ≠ [])
      (hmore : IsNotRun count more) : IsNotRun (count + 1) ("NOT".toList ++ (gap ++ more))

/-- An odd run negates. -/
def NotForm.Suits (count : Nat) : NotForm → Prop
  | group _ | minus => count % 2 = 1
  | and | nothing => count % 2 = 0

/-- A run is a run of `NOT`s outside phrases, brackets and escapes, and a group is made of the leaf behind it. -/
structure NotRun.Well (query : List Char) (run : NotRun) : Prop where
  text : ∃ front words back, query = front ++ (words ++ back) ∧ byteLength front = run.start ∧
    run.start + byteLength words = run.stop ∧ IsNotRun run.count words
  many : 0 < run.count
  context : (notContext (bytesOf query) run.start).isSome = true
  suits : run.form.Suits run.count
  plain : ∀ i, run.start ≤ i → i ≤ run.stop → readerAt (bytesOf query) i = {}
  leaf : ∀ leafEnd, run.form = .group leafEnd → LeafEnds (bytesOf query) run.stop leafEnd

def notRunsFrom (query bytes : List Char) : Nat → NotScan → Option (List NotRun)
  | 0, _ => none
  | steps + 1, s =>
    match bytes[s.i]? with
    | none => some []
    | some c => (scanByte query bytes s c).bind fun (s, run) => (notRunsFrom query bytes steps s).map (run.toList ++ ·)

def notRuns (query : List Char) : Option (List NotRun) :=
  if (findText "NOT".toList query).isNone then some []
  else notRunsFrom query (bytesOf query) ((bytesOf query).length + 1) {}

/-- A text from a byte on, and the text with its runs rewritten: a group is closed where its leaf ends, and
    everything else is copied. -/
inductive Rewrites : Nat → List Char → List Char → List NotRun → Prop
  | nil {place : Nat} : Rewrites place [] [] []
  | copy {place : Nat} {c : Char} {source out : List Char} {runs : List NotRun}
      (hrest : Rewrites (place + c.utf8Size) source out runs) : Rewrites place (c :: source) (c :: out) runs
  | write {run : NotRun} {words source out : List Char} {runs : List NotRun} (hwords : IsNotRun run.count words)
      (hstop : run.start + byteLength words = run.stop) (hsuits : run.form.Suits run.count)
      (hform : ∀ leafEnd, run.form ≠ .group leafEnd)
      (hrest : Rewrites run.stop source out runs) :
      Rewrites run.start (words ++ source) (run.form.text ++ out) (run :: runs)
  | group {run : NotRun} {words leaf leafOut source out : List Char} {inner runs : List NotRun} {leafEnd : Nat}
      (hwords : IsNotRun run.count words) (hstop : run.start + byteLength words = run.stop)
      (hsuits : run.form.Suits run.count)
      (hform : run.form = .group leafEnd) (hleaf : Rewrites run.stop leaf leafOut inner)
      (hend : run.stop + byteLength leaf = leafEnd) (hrest : Rewrites leafEnd source out runs) :
      Rewrites run.start (words ++ (leaf ++ source)) ("(* -".toList ++ (leafOut ++ ')' :: out)) (run :: (inner ++ runs))

/-- A run that starts in the group of `a` ends there. -/
def NotRun.Nests (a b : NotRun) : Prop :=
  ∀ leafEnd, a.form = .group leafEnd → b.start < leafEnd →
    b.stop ≤ leafEnd ∧ ∀ leafEnd', b.form = .group leafEnd' → leafEnd' ≤ leafEnd

/-- A rewrite of runs outside phrases, brackets and escapes: the runs are replaced, each group is closed at the end
    of the leaf behind its run, and all else is copied. -/
structure SafelyRewritten (query out : List Char) (runs : List NotRun) : Prop where
  rewrites : Rewrites 0 query out runs
  plain : ∀ run ∈ runs, ∀ front back, query = front ++ back → run.start ≤ byteLength front →
    byteLength front ≤ run.stop → past {} front = {}
  ends : ∀ run ∈ runs, ∀ leafEnd, run.form = .group leafEnd → LeafEnds (bytesOf query) run.stop leafEnd
  leaves : ∀ run ∈ runs, ∀ front c back, query = front ++ c :: back →
    run.form = .group (byteLength front) → past {} front = {}

/-- What begins in a leaf that is made a group ends in it, and the leaf does not end between brackets. -/
def LeavesNest (query : List Char) : Prop :=
  ∀ runs, notRuns query = some runs → runs.Pairwise NotRun.Nests ∧
    ∀ run ∈ runs, ∀ front c back, query = front ++ c :: back → run.form = .group (byteLength front) →
      (past {} front).depth = 0

section Scan
variable {query bytes rest words : List Char} {steps count i : Nat} {c : Char} {s : NotScan}

theorem opensNot_iff : opensNot rest = true ↔ ∃ d more, rest = "NOT".toList ++ d :: more ∧
    isAsciiWhitespace d = true := by
  unfold opensNot
  rw [Bool.and_eq_true, isPrefixOf_iff_prefix]
  constructor
  · rintro ⟨⟨tail, rfl⟩, hspace⟩
    have hdrop : ("NOT".toList ++ tail).drop 3 = tail := rfl
    rw [hdrop] at hspace
    cases tail with
    | nil => simp at hspace
    | cons d more => exact ⟨d, more, rfl, by simpa using hspace⟩
  · rintro ⟨d, more, rfl, hd⟩
    exact ⟨⟨_, rfl⟩, by simpa using hd⟩

theorem skipNots_spec (hsteps : rest.length ≤ steps) :
    ∃ words, rest.dropWhile isAsciiWhitespace = words ++ (skipNots steps rest).2 ∧ IsNotRun
    (skipNots steps rest).1 words := by
  induction steps generalizing rest with
  | zero =>
    obtain rfl : rest = [] := eq_nil_of_length_eq_zero (by omega)
    exact ⟨[], rfl, .nil⟩
  | succ steps ih =>
    rw [skipNots]
    have hshort : (rest.dropWhile isAsciiWhitespace).length ≤ rest.length := (dropWhile_suffix _).length_le
    generalize rest.dropWhile isAsciiWhitespace = rest at hshort
    dsimp only
    split_ifs with hopens
    · obtain ⟨d, more, rfl, hd⟩ := opensNot_iff.mp hopens
      have hdrop : ("NOT".toList ++ d :: more).drop 3 = d :: more := rfl
      rw [hdrop]
      obtain ⟨words, hwords, hrun⟩ := @ih (d :: more) (by simp at hshort ⊢; omega)
      refine ⟨"NOT".toList ++ ((d :: more).takeWhile isAsciiWhitespace ++ words), ?_, .cons ?_ ?_ hrun⟩
      · rw [append_assoc, append_assoc, ← hwords, takeWhile_append_dropWhile]
      · exact fun c hc => mem_takeWhile_imp hc
      · rw [takeWhile_cons_of_pos hd]
        exact nofun
    · exact ⟨[], rfl, .nil⟩

theorem skipNots_pos (hopens : opensNot rest = true) (hsteps : rest.length ≤ steps) : 0 < (skipNots steps rest).1 := by
  obtain ⟨d, more, rfl, hd⟩ := opensNot_iff.mp hopens
  cases steps with
  | zero => simp at hsteps
  | succ steps =>
    have hdrop : ("NOT".toList ++ d :: more).dropWhile isAsciiWhitespace = "NOT".toList ++ d :: more := by
      rw [show "NOT".toList = ['N', 'O', 'T'] from rfl, cons_append, dropWhile_cons_of_neg (by decide)]
    rw [skipNots, hdrop, if_pos hopens]
    exact Nat.succ_pos _

theorem IsNotRun.mem (h : IsNotRun count words) (hc : c ∈ words) :
    c ∈ ['N', 'O', 'T'] ∨ isAsciiWhitespace c = true := by
  induction h with
  | nil => cases hc
  | cons hgap _ _ ih =>
    simp only [mem_append] at hc
    rcases hc with hc | hc | hc
    · exact .inl hc
    · exact .inr (hgap c hc)
    · exact ih hc

theorem IsNotRun.not_mem_marks (h : IsNotRun count words) : ∀ c ∈ words, c ∉ marks := by
  intro c hc
  rcases h.mem hc with hword | hspace
  · simp only [mem_cons, not_mem_nil, or_false] at hword
    rcases hword with rfl | rfl | rfl <;> decide
  · exact not_mem_marks_of_space hspace

theorem ne_longByte_of_space (h : isAsciiWhitespace c = true) : c ≠ longByte := by
  rintro rfl
  exact absurd h (by decide)

theorem IsNotRun.ne_longByte (h : IsNotRun count words) : ∀ c ∈ words, c ≠ longByte := by
  intro c hc
  rcases h.mem hc with hword | hspace
  · simp only [mem_cons, not_mem_nil, or_false] at hword
    rcases hword with rfl | rfl | rfl <;> decide
  · exact ne_longByte_of_space hspace

/-- The scan's state is that of the reader. -/
def NotScan.Reads (bytes : List Char) (s : NotScan) : Prop :=
  s.i ≤ bytes.length → readerAt bytes s.i = ⟨false, s.inQuote, s.valueDepth⟩

theorem isBoundary_of_getElem? (h : (bytesOf query)[i]? = some c) (hc : c ≠ longByte) :
    IsBoundary query i ∧ IsBoundary query (i + 1) := by
  obtain ⟨front, back, rfl, rfl, hone⟩ := exists_of_getElem?_bytesOf h hc
  exact ⟨⟨front, c :: back, rfl, rfl⟩, front ++ [c], back, by simp, by simp [hone]⟩

theorem isBoundary_end (query : List Char) : IsBoundary query (byteLength query) := ⟨query, [], by simp, rfl⟩

theorem LeafEnds.isBoundary {leafEnd : Nat} (hi : Unquoted (bytesOf query) i) (h : LeafEnds (bytesOf query) i leafEnd) :
    IsBoundary query leafEnd := by
  rcases (h.spec hi).2 with hend | ⟨-, ⟨c, hc, hstop⟩ | ⟨hpos, hbracket⟩⟩
  · rw [hend, length_bytesOf]
    exact isBoundary_end query
  · refine (isBoundary_of_getElem? hc ?_).1
    rcases hstop with hspace | rfl
    · exact ne_longByte_of_space hspace
    · decide
  · have := (isBoundary_of_getElem? hbracket (by decide)).2
    rwa [Nat.sub_add_cancel hpos] at this

theorem notForm_suits (context : NotContext) (count leafEnd : Nat) : (notForm context count leafEnd).Suits count := by
  unfold notForm
  split_ifs with heven <;> simp only [NotForm.Suits] <;> omega

variable {context : NotContext}

theorem notForm_group {leafEnd leafEnd' : Nat} (h : notForm context count leafEnd = .group leafEnd') :
    leafEnd' = leafEnd := by
  unfold notForm at h
  split_ifs at h
  exact (NotForm.group.inj h).symm

theorem skipNots_run (hopens : opensNot ((bytesOf query).drop i) = true) :
    ∃ front words back, query = front ++ (words ++ back) ∧ byteLength front = i ∧ words ≠ [] ∧
    byteLength words = words.length ∧ IsNotRun (skipNots (bytesOf query).length ((bytesOf query).drop i)).1 words ∧
      (bytesOf query).drop i = words ++ (skipNots (bytesOf query).length ((bytesOf query).drop i)).2 := by
  have hsteps : ((bytesOf query).drop i).length ≤ (bytesOf query).length := by simp
  obtain ⟨words, hwords, hrun⟩ := skipNots_spec hsteps
  have hpos := skipNots_pos hopens hsteps
  have hdrop : ((bytesOf query).drop i).dropWhile isAsciiWhitespace = (bytesOf query).drop i := by
    obtain ⟨d, more, hmore, -⟩ := opensNot_iff.mp hopens
    rw [hmore, show "NOT".toList = ['N', 'O', 'T'] from rfl, cons_append, dropWhile_cons_of_neg (by decide)]
  rw [hdrop] at hwords
  have hne : words ≠ [] := by
    rintro rfl
    cases hcount : (skipNots (bytesOf query).length ((bytesOf query).drop i)).1 with
    | zero => omega
    | succ count =>
      rw [hcount] at hrun
      cases hrun
  obtain ⟨front, back, htext, hfront, -, hlength⟩ := exists_of_drop_bytesOf hwords hrun.ne_longByte hne
  exact ⟨front, words, back, htext, hfront, hne, hlength, hrun, hwords⟩

theorem readerAt_of_not_mem {left : List Char} (hdrop : bytes.drop i = words ++ left) (hwords : ∀ c ∈ words, c ∉ marks)
    (hlt : i < bytes.length) (hescaped : (readerAt bytes i).escaped = false) {j : Nat} (hle : i ≤ j)
    (hj : j ≤ i + words.length) : readerAt bytes j = readerAt bytes i := by
  have hbytes : bytes = bytes.take i ++ (words.take (j - i) ++ (words.drop (j - i) ++ left)) := by
    conv_lhs => rw [← take_append_drop i bytes, hdrop, ← take_append_drop (j - i) words]
    rw [append_assoc]
  have hpast := readerAt_past hbytes
  rw [length_take_of_le hlt.le, length_take_of_le (by omega), Nat.add_sub_cancel' hle] at hpast
  rw [hpast, past_of_not_mem (fun c hc => hwords c (mem_of_mem_take hc)) fun _ => hescaped, ← hescaped]

theorem readNot_spec (hopens : opensNot ((bytesOf query).drop s.i) = true) (hplain : readerAt (bytesOf query) s.i = {})
    (hquote : s.inQuote = false) (hdepth : s.valueDepth = 0)
    (hcontext : notContext (bytesOf query) s.i = some context) :
    ∃ s' run?, readNot query (bytesOf query) s context = some (s', run?) ∧ s.i < s'.i ∧ s'.Reads (bytesOf query) ∧
      ∀ run ∈ run?, run.Well query ∧ run.start = s.i ∧ run.stop = s'.i := by
  obtain ⟨front, words, back, htext, hfront, hne, hlength, hrun, hdrop⟩ := skipNots_run hopens
  have hpos := @skipNots_pos _ (bytesOf query).length hopens (by simp)
  unfold readNot
  generalize skipNots (bytesOf query).length ((bytesOf query).drop s.i) = found at hrun hdrop hpos
  obtain ⟨count, left⟩ := found
  dsimp only at hrun hdrop hpos ⊢
  have hwords : 0 < words.length := length_pos_iff.mpr hne
  have hbytes := congrArg List.length hdrop
  rw [length_drop, length_append] at hbytes
  have hstop : (bytesOf query).length - left.length = s.i + words.length := by omega
  rw [hstop]
  have hread : ∀ i, s.i ≤ i → i ≤ s.i + words.length → readerAt (bytesOf query) i = {} := by
    intro i hle hi
    rw [readerAt_of_not_mem hdrop hrun.not_mem_marks (by omega) (by rw [hplain]) hle hi, hplain]
  have hunquoted : Unquoted (bytesOf query) (s.i + words.length) := by
    have hend := hread (s.i + words.length) (by omega) (Nat.le_refl _)
    exact ⟨by omega, by rw [hend], by rw [hend]⟩
  have hleaf := notLeafEnd_leafEnds hunquoted
  have hle := (hleaf.spec hunquoted).1
  have hboundary := hleaf.isBoundary hunquoted
  have hstart : IsBoundary query (s.i + words.length) :=
    ⟨front ++ words, back, by rw [htext, append_assoc], by rw [byteLength_append, hfront, hlength]⟩
  obtain ⟨leaf, hslice⟩ := isSome_iff_exists.mp (slice_isSome_iff.mpr ⟨hle, hstart, hboundary⟩)
  rw [hslice, map_some]
  split_ifs
  · exact ⟨_, none, rfl, by simp; omega, fun _ => by simpa [hquote, hdepth] using hread _ (by simp) (by simp), nofun⟩
  · refine ⟨_, none, rfl, by simp, fun _ => ?_, nofun⟩
    simpa [hquote, hdepth] using hread (s.i + 1) (by omega) (by omega)
  · refine ⟨_, some _, rfl, by simp; omega, fun _ => by simpa [hquote, hdepth] using hread _ (by simp) (by simp), ?_⟩
    intro run hmem
    obtain rfl := mem_some_iff.mp hmem
    refine ⟨⟨⟨front, words, back, htext, hfront, by rw [hlength], hrun⟩, hpos, by rw [hcontext, isSome_some],
      notForm_suits context count _, hread, ?_⟩, rfl, rfl⟩
    intro leafEnd hform
    obtain rfl := notForm_group hform
    exact hleaf

theorem scanByte_spec (hs : s.Reads (bytesOf query)) (hc : (bytesOf query)[s.i]? = some c) :
    ∃ s' run?, scanByte query (bytesOf query) s c = some (s', run?) ∧ s.i < s'.i ∧ s'.Reads (bytesOf query) ∧
      ∀ run ∈ run?, run.Well query ∧ run.start = s.i ∧ run.stop = s'.i := by
  have hread := hs (lt_of_getElem? hc).le
  have hnext := readerAt_succ hc
  rw [hread] at hnext
  -- A byte that begins no run is passed over with what it opens or closes.
  have hpass : ∀ s' : NotScan, s'.i = s.i + 1 →
      (⟨false, s.inQuote, s.valueDepth⟩ : Reader).next c = ⟨false, s'.inQuote, s'.valueDepth⟩ →
      ∃ s'' run?, some (s', (none : Option NotRun)) = some (s'', run?) ∧ s.i < s''.i ∧ s''.Reads (bytesOf query) ∧
        ∀ run ∈ run?, run.Well query ∧ run.start = s.i ∧ run.stop = s''.i :=
    fun s' hi hreader => ⟨s', none, rfl, by omega, fun _ => by rw [hi, hnext, hreader], nofun⟩
  fun_cases scanByte query (bytesOf query) s c
  case case1 hslash =>
    refine ⟨_, none, rfl, by simp, fun hle => ?_, nofun⟩
    rw [readerAt_escape (hslash ▸ hc) (by rw [hread]) hle, hread]
  case case10 hcontext => exact readNot_spec (by assumption) (by grind) (by grind) (by grind) hcontext
  all_goals exact hpass _ rfl (by grind [Reader.next])

theorem NotRun.Well.start_lt_stop {run : NotRun} (h : run.Well query) : run.start < run.stop := by
  obtain ⟨front, words, back, -, -, hstop, hwords⟩ := h.text
  have hmany := h.many
  cases hcount : run.count with
  | zero => omega
  | succ count =>
    rw [hcount] at hwords
    cases hwords with
    | cons hgap hne hmore =>
      rw [byteLength_append] at hstop
      have hnot : byteLength "NOT".toList = 3 := by decide
      omega

theorem NotRun.Well.unquoted {run : NotRun} (h : run.Well query) : Unquoted (bytesOf query) run.stop := by
  obtain ⟨front, words, back, htext, hfront, hstop, -⟩ := h.text
  have hread := h.plain run.stop h.start_lt_stop.le (Nat.le_refl _)
  refine ⟨?_, by rw [hread], by rw [hread]⟩
  rw [length_bytesOf, htext, byteLength_append, byteLength_append]
  omega

theorem notRunsFrom_spec (hs : s.Reads (bytesOf query))
    (hsteps : (bytesOf query).length < min s.i (bytesOf query).length + steps) :
    ∃ runs, notRunsFrom query (bytesOf query) steps s = some runs ∧ (∀ run ∈ runs, run.Well query ∧ s.i ≤ run.start) ∧
      runs.Pairwise fun a b => a.stop ≤ b.start := by
  induction steps generalizing s with
  | zero => omega
  | succ steps ih =>
    rw [notRunsFrom]
    cases hc : (bytesOf query)[s.i]? with
    | none => exact ⟨[], rfl, nofun, .nil⟩
    | some c =>
      obtain ⟨s', run?, hscan, hlt, hreads, hrun⟩ := scanByte_spec hs hc
      have hin := lt_of_getElem? hc
      obtain ⟨runs, hruns, hwell, hordered⟩ := ih hreads (by omega)
      dsimp only
      rw [hscan, bind_some]
      dsimp only
      rw [hruns, map_some]
      refine ⟨_, rfl, ?_, ?_⟩
      · intro run hmem
        rcases mem_append.mp hmem with hmem | hmem
        · obtain ⟨hwell, hstart, -⟩ := hrun run (Option.mem_toList.mp hmem)
          exact ⟨hwell, hstart.ge⟩
        · exact ⟨(hwell run hmem).1, by have := (hwell run hmem).2; omega⟩
      · cases run? with
        | none => exact hordered
        | some run =>
          refine pairwise_cons.mpr ⟨fun other hother => ?_, hordered⟩
          rw [(hrun run rfl).2.2]
          exact (hwell other hother).2

end Scan

section Emit
variable {query bytes : List Char} {out : List Char} {copied i j : Nat} {closes : List Nat}
  {runs : List NotRun} {o : NotOutput}

/-- What is written after the scan. -/
def finishNots (query : List Char) (o : NotOutput) : Option (List Char) :=
  (closeUpTo query (byteLength query) o.out o.copied o.closes).bind fun o =>
    if o.copied = 0 then some query else (splitBytes query o.copied).map fun parts => o.out ++ parts.2

def emitRuns (query : List Char) : List NotRun → NotOutput → Option (List Char)
  | [], o => finishNots query o
  | run :: runs, o =>
    (closeUpTo query run.start o.out o.copied o.closes).bind fun o => (writeRun query o run).bind (emitRuns query runs)

def closeLimit (query : List Char) : List NotRun → Nat
  | [] => byteLength query
  | run :: _ => run.start

theorem closeUpTo_closeUpTo (hle : i ≤ j) (out : List Char) (copied : Nat) (closes : List Nat) :
    ((closeUpTo query i out copied closes).bind fun o => closeUpTo query j o.out o.copied o.closes) =
      closeUpTo query j out copied closes := by
  induction closes generalizing out copied with
  | nil => rfl
  | cons leafEnd closes ih =>
    rw [closeUpTo]
    split_ifs with hdue
    · rw [closeUpTo, if_pos (by omega)]
      cases slice query copied leafEnd with
      | none => rfl
      | some part => exact ih _ _
    · rfl

theorem closeUpTo_emitRuns (hle : i ≤ closeLimit query runs) :
    (closeUpTo query i o.out o.copied o.closes).bind (emitRuns query runs) = emitRuns query runs o := by
  cases runs with
  | nil =>
    have hclose := @closeUpTo_closeUpTo query i (byteLength query) hle o.out o.copied o.closes
    simp only [emitRuns, finishNots, ← hclose, Option.bind_assoc]
  | cons run runs =>
    have hclose := @closeUpTo_closeUpTo query i run.start hle o.out o.copied o.closes
    simp only [emitRuns, ← hclose, Option.bind_assoc]

theorem notLoop_emitRuns {steps : Nat} {s : NotScan} (hs : s.Reads (bytesOf query))
    (hsteps : (bytesOf query).length < min s.i (bytesOf query).length + steps) :
    (notLoop query (bytesOf query) steps s o).bind (finishNots query) =
      (notRunsFrom query (bytesOf query) steps s).bind fun runs => emitRuns query runs o := by
  induction steps generalizing s o with
  | zero => omega
  | succ steps ih =>
    rw [notLoop, notRunsFrom]
    cases hc : (bytesOf query)[s.i]? with
    | none => rfl
    | some c =>
      have hin := lt_of_getElem? hc
      obtain ⟨s', run?, hscan, hlt, hreads, hrun⟩ := scanByte_spec hs hc
      have hsteps' : (bytesOf query).length < min s'.i (bytesOf query).length + steps := by omega
      obtain ⟨runs, hruns, hwell, -⟩ := notRunsFrom_spec hreads hsteps'
      dsimp only
      rw [hscan, bind_some]
      dsimp only
      rw [hruns, map_some, bind_some]
      cases run? with
      | none =>
        have hlimit : s.i ≤ closeLimit query runs := by
          cases runs with
          | nil =>
            rw [closeLimit, ← length_bytesOf]
            omega
          | cons run runs =>
            have := (hwell run mem_cons_self).2
            rw [closeLimit]
            omega
        simp only [Option.bind_assoc, bind_some, ih hreads hsteps', hruns]
        exact closeUpTo_emitRuns hlimit
      | some run =>
        rw [← (hrun run rfl).2.1]
        simp only [Option.bind_assoc, bind_some, ih hreads hsteps', hruns]
        rfl

end Emit

section Nested
variable {query done source out front leaf : List Char} {place : Nat} {closes : List Nat} {runs : List NotRun}

/-- `Rewrites` with groups still open at `closes`. -/
inductive Closed : Nat → List Nat → List Char → List Char → List NotRun → Prop
  | done {place : Nat} {source out : List Char} {runs : List NotRun} (h : Rewrites place source out runs) :
      Closed place [] source out runs
  | close {place leafEnd : Nat} {closes : List Nat} {leaf leafOut source out : List Char} {inner runs : List NotRun}
      (hleaf : Rewrites place leaf leafOut inner) (hend : place + byteLength leaf = leafEnd)
      (hrest : Closed leafEnd closes source out runs) :
      Closed place (leafEnd :: closes) (leaf ++ source) (leafOut ++ ')' :: out) (inner ++ runs)

theorem Rewrites.append_copy (h : Rewrites (place + byteLength front) source out runs) :
    Rewrites place (front ++ source) (front ++ out) runs := by
  induction front generalizing place with
  | nil => simpa using h
  | cons c front ih =>
    refine .copy (ih ?_)
    rwa [byteLength_cons, ← Nat.add_assoc] at h

theorem Rewrites.copied (place : Nat) (front : List Char) : Rewrites place front front [] := by
  have := @Rewrites.append_copy [] [] front place [] .nil
  rwa [append_nil] at this

/-- What is put in front of a rewritten text is put in front of its first part. -/
theorem Closed.prepend {place' : Nat} {frontOut : List Char} {before : List NotRun}
    (h : Closed place' closes source out runs) (hplace : place + byteLength front = place')
    (hfront : ∀ source out runs, Rewrites place' source out runs → Rewrites place (front ++ source)
    (frontOut ++ out) (before ++ runs)) :
    Closed place closes (front ++ source) (frontOut ++ out) (before ++ runs) := by
  cases h with
  | done h => exact .done (hfront _ _ _ h)
  | @close _ leafEnd closes leaf leafOut source out inner runs hleaf hend hrest =>
    have hclose := Closed.close (hfront _ _ _ hleaf) (by rw [byteLength_append]; omega) hrest
    simpa using hclose

/-- The runs and the closing brackets still to be written. -/
structure Pending (query : List Char) (copied : Nat) (closes : List Nat) (runs : List NotRun) : Prop where
  sorted : closes.Pairwise (· ≤ ·)
  due : ∀ leafEnd ∈ closes, copied ≤ leafEnd ∧ 0 < leafEnd ∧ IsBoundary query leafEnd
  well : ∀ run ∈ runs, run.Well query ∧ copied ≤ run.start
  ordered : runs.Pairwise fun a b => a.stop ≤ b.start
  nests : runs.Pairwise NotRun.Nests
  inside : ∀ leafEnd ∈ closes, ∀ run ∈ runs, run.start < leafEnd →
    run.stop ≤ leafEnd ∧ ∀ leafEnd', run.form = .group leafEnd' → leafEnd' ≤ leafEnd

theorem Pending.close {copied leafEnd : Nat} (h : Pending query copied (leafEnd :: closes) runs)
    (hlimit : leafEnd ≤ closeLimit query runs) : Pending query leafEnd closes runs := by
  obtain ⟨hsorted, hdue, hwell, hordered, hnests, hinside⟩ := h
  obtain ⟨hnearest, hsorted⟩ := pairwise_cons.mp hsorted
  refine ⟨hsorted, fun e he => ⟨hnearest e he, (hdue e (mem_cons_of_mem _ he)).2⟩, ?_, hordered, hnests,
    fun e he => hinside e (mem_cons_of_mem _ he)⟩
  intro run hrun
  refine ⟨(hwell run hrun).1, ?_⟩
  cases runs with
  | nil => cases hrun
  | cons first runs =>
    rcases mem_cons.mp hrun with rfl | hrun
    · exact hlimit
    · have hfirst := (hwell first mem_cons_self).1.start_lt_stop
      have hlater := (pairwise_cons.mp hordered).1 run hrun
      rw [closeLimit] at hlimit
      omega

def closesAfter (run : NotRun) (closes : List Nat) : List Nat :=
  match run.form with
  | .group leafEnd => leafEnd :: closes
  | _ => closes

variable {copied : Nat} {leafEnd : Nat}

theorem Pending.write {run : NotRun} (h : Pending query copied closes (run :: runs))
    (hlater : ∀ leafEnd ∈ closes, run.start < leafEnd) : Pending query run.stop (closesAfter run closes) runs := by
  obtain ⟨hsorted, hdue, hwell, hordered, hnests, hinside⟩ := h
  obtain ⟨hfirst, hordered⟩ := pairwise_cons.mp hordered
  obtain ⟨hnest, hnests⟩ := pairwise_cons.mp hnests
  have hrun := (hwell run mem_cons_self).1
  have hlt := hrun.start_lt_stop
  have hwithin : ∀ leafEnd ∈ closes, run.stop ≤ leafEnd ∧ ∀ leafEnd', run.form = .group leafEnd' → leafEnd' ≤ leafEnd :=
    fun e he => hinside e he run mem_cons_self (hlater e he)
  have hrest : Pending query run.stop closes runs :=
    ⟨hsorted, fun e he => ⟨(hwithin e he).1, (hdue e he).2⟩,
      fun other hother => ⟨(hwell other (mem_cons_of_mem _ hother)).1, hfirst other hother⟩, hordered, hnests,
      fun e he other hother => hinside e he other (mem_cons_of_mem _ hother)⟩
  unfold closesAfter
  cases hform : run.form with
  | group leafEnd =>
    have hleaf := hrun.leaf leafEnd hform
    have hstop := (hleaf.spec hrun.unquoted).1
    have hboundary := hleaf.isBoundary hrun.unquoted
    refine ⟨pairwise_cons.mpr ⟨fun e he => (hwithin e he).2 leafEnd hform, hrest.sorted⟩, ?_, hrest.well,
      hordered, hnests, ?_⟩
    · exact forall_mem_cons.mpr ⟨⟨hstop, by omega, hboundary⟩, hrest.due⟩
    · refine forall_mem_cons.mpr ⟨fun other hother hstart => ?_, hrest.inside⟩
      exact hnest other hother leafEnd hform hstart
  | minus => exact hrest
  | and => exact hrest
  | nothing => exact hrest

theorem emitRuns_close {copied leafEnd : Nat} (hlimit : leafEnd ≤ closeLimit query runs) :
    emitRuns query runs ⟨out, copied, leafEnd :: closes⟩ =
      (slice query copied leafEnd).bind fun part => emitRuns query runs ⟨out ++ (part ++ [')']), leafEnd, closes⟩ := by
  cases runs with
  | nil =>
    rw [closeLimit] at hlimit
    simp only [emitRuns, finishNots, closeUpTo, if_pos hlimit, Option.bind_assoc]
  | cons run runs =>
    rw [closeLimit] at hlimit
    simp only [emitRuns, closeUpTo, if_pos hlimit, Option.bind_assoc]

theorem emitRuns_write {run : NotRun} (hlater : ∀ leafEnd ∈ closes, run.start < leafEnd) :
    emitRuns query (run :: runs) ⟨out, copied, closes⟩ =
      (slice query copied run.start).bind fun part =>
        emitRuns query runs ⟨out ++ (part ++ run.form.text), run.stop, closesAfter run closes⟩ := by
  have hclose : closeUpTo query run.start out copied closes = some ⟨out, copied, closes⟩ := by
    cases closes with
    | nil => rfl
    | cons leafEnd closes => rw [closeUpTo, if_neg (by have := hlater leafEnd mem_cons_self; omega)]
  simp only [emitRuns, hclose, bind_some, writeRun, Option.bind_map]
  rfl

/-- A place to cut further on, by the text up to it. -/
theorem exists_part (hquery : query = done ++ source) (hle : byteLength done ≤ leafEnd)
    (hcut : IsBoundary query leafEnd) :
    ∃ part rest, source = part ++ rest ∧ byteLength (done ++ part) = leafEnd ∧ slice query
    (byteLength done) leafEnd = some part := by
  obtain ⟨front, back, htext, hfront⟩ := hcut
  obtain ⟨part, rfl, rfl⟩ := append_eq_append_of_byteLength_le (hquery.symm.trans htext) (by omega)
  refine ⟨part, back, rfl, hfront, slice_eq_some_iff.mpr ⟨done, back, htext, rfl, ?_⟩⟩
  rw [← hfront, byteLength_append]

/-- The writer gets through these runs as `Closed` says. -/
def Writes (query : List Char) (closes : List Nat) (runs : List NotRun) : Prop :=
  ∀ done source out, query = done ++ source → Pending query (byteLength done) closes runs →
    (byteLength done = 0 → out = []) →
    ∃ text, emitRuns query runs ⟨out, byteLength done, closes⟩ = some (out ++ text) ∧
      Closed (byteLength done) closes source text runs

theorem Writes.close (h : Writes query closes runs) (done source out : List Char) (hquery : query = done ++ source)
    (hpending : Pending query (byteLength done) (leafEnd :: closes) runs) (hlimit : leafEnd ≤ closeLimit query runs) :
    ∃ text, emitRuns query runs ⟨out, byteLength done, leafEnd :: closes⟩ = some (out ++ text) ∧
      Closed (byteLength done) (leafEnd :: closes) source text runs := by
  obtain ⟨hle, hpos, hcut⟩ := hpending.due leafEnd mem_cons_self
  obtain ⟨part, rest, rfl, hpart, hslice⟩ := exists_part hquery hle hcut
  have hrest := hpending.close hlimit
  rw [← hpart] at hrest
  obtain ⟨text, hemit, hclosed⟩ := h (done ++ part) rest (out ++ (part ++ [')'])) (by simp [hquery]) hrest (by omega)
  rw [hpart] at hemit hclosed
  refine ⟨part ++ ')' :: text, ?_, .close (.copied _ part) (by rw [← hpart, byteLength_append]) hclosed⟩
  rw [emitRuns_close hlimit, hslice, bind_some, hemit]
  simp

theorem Writes.run {run : NotRun} (h : ∀ closes, Writes query closes runs) (done source out : List Char)
    (hquery : query = done ++ source)
    (hpending : Pending query (byteLength done) closes (run :: runs))
    (hlater : ∀ leafEnd ∈ closes, run.start < leafEnd) :
    ∃ text, emitRuns query (run :: runs) ⟨out, byteLength done, closes⟩ = some (out ++ text) ∧
      Closed (byteLength done) closes source text (run :: runs) := by
  obtain ⟨hwell, hle⟩ := hpending.well run mem_cons_self
  obtain ⟨front, words, back, htext, hfront, hstop, hwords⟩ := hwell.text
  obtain ⟨part, rfl, rfl⟩ := append_eq_append_of_byteLength_le (hquery.symm.trans htext) (by omega)
  have hslice : slice query (byteLength done) run.start = some part :=
    slice_eq_some_iff.mpr ⟨done, words ++ back, htext, rfl, by rw [← hfront, byteLength_append]⟩
  have hbytes : byteLength (done ++ part ++ words) = run.stop := by rw [byteLength_append, hfront, hstop]
  have hrest := hpending.write hlater
  have hlt := hwell.start_lt_stop
  rw [← hbytes] at hrest
  obtain ⟨text, hemit, hclosed⟩ := h _ (done ++ part ++ words) back (out ++ (part ++ run.form.text))
    (by simp [htext]) hrest (by omega)
  rw [hbytes] at hemit hclosed
  refine ⟨part ++ (run.form.text ++ text), ?_, ?_⟩
  · rw [emitRuns_write hlater, hslice, bind_some, hemit]
    simp
  · -- A group's leaf is the first part of what is written after it.
    have hcopy : byteLength done + byteLength part = run.start := by rw [← hfront, byteLength_append]
    by_cases hform : ∃ leafEnd, run.form = .group leafEnd
    · obtain ⟨leafEnd, hform⟩ := hform
      rw [closesAfter, hform] at hclosed
      rw [hform]
      cases hclosed with
      | @close _ _ _ leaf leafOut source out inner runs hleaf hend hclosed =>
        have hgroup := @Closed.prepend source out (part ++ (words ++ leaf)) (byteLength done) closes runs leafEnd
          (part ++ ("(* -".toList ++ (leafOut ++ [')']))) (run :: inner) hclosed
          (by simp only [byteLength_append]; omega) fun source out runs hrest => by
            have := Rewrites.group hwords hstop hwell.suits hform hleaf hend hrest
            rw [← hcopy] at this
            simpa using this.append_copy
        simpa [NotForm.text] using hgroup
    · have hplain : closesAfter run closes = closes := by
        unfold closesAfter
        cases hrun : run.form with
        | group leafEnd => exact absurd ⟨leafEnd, hrun⟩ hform
        | _ => rfl
      rw [hplain] at hclosed
      have hwrite := @Closed.prepend back text (part ++ words) (byteLength done) closes runs run.stop
        (part ++ run.form.text) [run]
        hclosed (by rw [byteLength_append]; omega) fun source out runs hrest => by
          have := Rewrites.write hwords hstop hwell.suits (fun leafEnd h => hform ⟨leafEnd, h⟩) hrest
          rw [← hcopy] at this
          simpa using this.append_copy
      simpa using hwrite

/-- Runs that nest are written as such, whatever parentheses are due. -/
theorem writes (query : List Char) (closes : List Nat) (runs : List NotRun) : Writes query closes runs := by
  induction runs generalizing closes with
  | nil =>
    induction closes with
    | nil =>
      intro done source out hquery _ hfresh
      refine ⟨source, ?_, .done (.copied _ _)⟩
      simp only [emitRuns, finishNots, closeUpTo, bind_some]
      split_ifs with hzero
      · rw [hfresh hzero, hquery, byteLength_eq_zero.mp hzero]
      · rw [splitBytes_eq_some_iff.mpr ⟨hquery, rfl⟩]
        rfl
    | cons leafEnd closes ih =>
      intro done source out hquery hpending _
      obtain ⟨front, back, htext, hfront⟩ := (hpending.due leafEnd mem_cons_self).2.2
      refine ih.close done source out hquery hpending ?_
      rw [closeLimit, htext, byteLength_append]
      omega
  | cons run runs ihRuns =>
    induction closes with
    | nil => exact fun done source out hquery hpending _ => Writes.run ihRuns done source out hquery hpending nofun
    | cons leafEnd closes ih =>
      intro done source out hquery hpending _
      by_cases hdue : leafEnd ≤ run.start
      · exact ih.close done source out hquery hpending hdue
      · refine Writes.run ihRuns done source out hquery hpending ?_
        have hnearest := (pairwise_cons.mp hpending.sorted).1
        exact forall_mem_cons.mpr ⟨by omega, fun e he => by have := hnearest e he; omega⟩

theorem Rewrites.within (h : Rewrites place source out runs) : ∀ run ∈ runs, place ≤ run.start ∧ run.start ≤ run.stop ∧
    run.stop ≤ place + byteLength source ∧ ∀ leafEnd, run.form = .group leafEnd →
    leafEnd ≤ place + byteLength source := by
  induction h with
  | nil => exact nofun
  | copy hrest ih => grind [byteLength_cons]
  | @write run words source out runs hwords hstop hsuits hform hrest ih =>
    refine forall_mem_cons.mpr ⟨by grind [byteLength_append], by grind [byteLength_append]⟩
  | @group run words leaf leafOut source out inner runs leafEnd hwords hstop hsuits hform hleaf hend hrest ihLeaf ih =>
    simp only [byteLength_append]
    refine forall_mem_cons.mpr ⟨by grind, fun other hother => ?_⟩
    rcases mem_append.mp hother with hother | hother
    · grind [ihLeaf other hother]
    · grind [ih other hother]

theorem Rewrites.nests (h : Rewrites place source out runs) : runs.Pairwise NotRun.Nests := by
  induction h with
  | nil => exact .nil
  | copy _ ih => exact ih
  | write _ _ _ hform _ ih => exact pairwise_cons.mpr ⟨fun _ _ leafEnd h => absurd h (hform leafEnd), ih⟩
  | @group run words leaf leafOut source out inner runs leafEnd hwords hstop hsuits hform hleaf hend hrest ihLeaf ih =>
    refine pairwise_cons.mpr ⟨fun other hother e he hstart => ?_, pairwise_append.mpr ⟨ihLeaf, ih, ?_⟩⟩
    · obtain rfl : leafEnd = e := NotForm.group.inj (hform.symm.trans he)
      rcases mem_append.mp hother with hother | hother
      · obtain ⟨-, -, hstop, hleaf⟩ := hleaf.within other hother
        exact ⟨by omega, fun e he => by have := hleaf e he; omega⟩
      · have := (hrest.within other hother).1
        omega
    · intro first hfirst second hsecond e he hstart
      have hfirstEnd := (hleaf.within first hfirst).2.2.2 e he
      have hsecondStart := (hrest.within second hsecond).1
      omega

theorem readerAt_bytesOf {back : List Char} (hquery : query = front ++ back) :
    readerAt (bytesOf query) (byteLength front) = past {} front := by
  rw [readerAt, hquery, bytesOf_append, ← length_bytesOf, take_left, past_bytesOf]

theorem notRuns_spec (query : List Char) : ∃ runs, notRuns query = some runs ∧ (∀ run ∈ runs, run.Well query) ∧
    runs.Pairwise (fun a b => a.stop ≤ b.start) ∧ normalizeNotClauses query = emitRuns query runs {} := by
  unfold notRuns normalizeNotClauses
  split_ifs
  · exact ⟨[], rfl, nofun, .nil, rfl⟩
  · have hstart : NotScan.Reads (bytesOf query) {} := fun _ => readerAt_zero
    obtain ⟨runs, hruns, hwell, hordered⟩ := @notRunsFrom_spec query ((bytesOf query).length + 1) {} hstart (by simp)
    refine ⟨runs, hruns, fun run hrun => (hwell run hrun).1, hordered, ?_⟩
    have hloop := @notLoop_emitRuns query {} ((bytesOf query).length + 1) {} hstart (by simp)
    rw [hruns, bind_some] at hloop
    rw [← hloop]
    simp only [length_bytesOf]
    rfl

theorem LeavesNest.safelyRewritten (hnest : LeavesNest query) :
    ∃ out runs, normalizeNotClauses query = some out ∧ notRuns query = some runs ∧ SafelyRewritten query out runs := by
  obtain ⟨runs, hruns, hwell, hordered, hemit⟩ := notRuns_spec query
  obtain ⟨hnests, houtside⟩ := hnest runs hruns
  have hpending : Pending query (byteLength []) [] runs :=
    ⟨.nil, nofun, fun run hrun => ⟨hwell run hrun, Nat.zero_le _⟩, hordered, hnests, nofun⟩
  obtain ⟨text, htext, hclosed⟩ := writes query [] runs [] query [] rfl hpending fun _ => rfl
  refine ⟨text, runs, by rw [hemit]; exact htext, hruns, ?_, ?_, fun run hrun => (hwell run hrun).leaf, ?_⟩
  · cases hclosed with
    | done h => exact h
  · intro run hrun front back hquery hstart hstop
    rw [← readerAt_bytesOf hquery]
    exact (hwell run hrun).plain _ hstart hstop
  · intro run hrun front c back hquery hform
    have hread := readerAt_bytesOf hquery
    obtain ⟨-, hend | ⟨⟨-, hescaped, hphrase⟩, -⟩⟩ := ((hwell run hrun).leaf _ hform).spec (hwell run hrun).unquoted
    · rw [length_bytesOf, hquery, byteLength_append, byteLength_cons] at hend
      have := c.utf8Size_pos
      omega
    · rw [hread] at hescaped hphrase
      exact eq_start hphrase (houtside run hrun front c back hquery hform) hescaped

/-- The rewrite is safe exactly when the leaves made into groups nest and none ends between brackets. -/
theorem safelyRewritten_iff (query : List Char) :
    (∃ out runs, normalizeNotClauses query = some out ∧ notRuns query = some runs ∧ SafelyRewritten query out runs) ↔
      LeavesNest query := by
  constructor
  · rintro ⟨out, runs, -, hruns, hsafe⟩ runs' hruns'
    obtain rfl := some_inj.mp (hruns.symm.trans hruns')
    exact ⟨hsafe.rewrites.nests,
      fun run hrun front c back hquery hform => by rw [hsafe.leaves run hrun front c back hquery hform]⟩
  · exact LeavesNest.safelyRewritten

/-- An escaped space in a leaf hides a `NOT` from the scan for the leaf's end, and a stray parenthesis ends a leaf
    in a range. -/
theorem normalizeNotClauses_stops :
    normalizeNotClauses "NOT a\\ NOT b".toList = none ∧
      normalizeNotClauses "NOT [a) b]".toList = some "(* -[a)) b]".toList := by
  decide +kernel

end Nested

end CameoDb
