import CameoDb.Storage.OpenIndexes
import Mathlib.Data.List.Basic
import Mathlib.Data.List.Induction

/-! # The open indexes of a shard respect the cap

What is evicted is found by its tick, so ticks are in the order of the uses. -/

namespace CameoDb
open List Function OpenSet CacheStep Std

namespace CacheStep

/-- The index a step admits, or stamps again, and the locks it finds. -/
def opens (s : OpenSet) : CacheStep → Option (String × IndexLocks)
  | openWriter index locks opened => if s.writers index || !opened then none else some (index, locks)
  | openReader index locks exists_ _ => if s.readers index || !exists_ then none else some (index, locks)
  | _ => none

def uses (s : OpenSet) : CacheStep → Option String
  | touch index => some index
  | step => (step.opens s).map (·.1)

end CacheStep

/-- The indexes used along a run, the latest first. -/
def OpenSet.recent (cap : Nat) (steps : List CacheStep) : List String :=
  (steps.foldl (fun (found : OpenSet × List String) step =>
    (found.1.step cap step, (step.uses found.1).toList ++ found.2)) ({}, [])).2

namespace OpenSet

/-- Indexes closed one after another, each the one used longest ago of those that did not refuse. -/
inductive Evicts (recent : List String) (locks : IndexLocks) : OpenSet → OpenSet → Prop
  | nothing {s : OpenSet} : Evicts recent locks s s
  | victim {s s' : OpenSet} {victim : String} (tracked : victim ∈ s.openIndexes)
      (closable : s.refuses locks victim = false)
      (coldest : ∀ other ∈ s.openIndexes, other ≠ victim → s.refuses locks other = false →
      recent.idxOf other < recent.idxOf victim)
      (rest : Evicts recent locks (s.dropIndexCaches victim) s') : Evicts recent locks s s'

/-- Ticks order the open indexes as they were last used. -/
structure Sound (recent : List String) (s : OpenSet) : Prop where
  tracked : ∀ index, s.writers index = true ∨ s.readers index = true → index ∈ s.openIndexes
  used : ∀ index ∈ s.openIndexes, index ∈ recent
  ticks : ∀ (index : String) (tick : Nat), s.openIndexes[index]? = some tick → tick < s.openTick
  order : ∀ (i j : String) (a b : Nat), s.openIndexes[i]? = some a → s.openIndexes[j]? = some b →
    (a < b ↔ recent.idxOf j < recent.idxOf i)

variable {recent : List String} {s s' : OpenSet} {locks : IndexLocks} {index other : String} {cap : Nat}

theorem coldest_spec {closable : String → Bool} {entries : List (String × Nat)} {found : Option (Nat × String)}
    (h : entries.foldl (colder closable) none = found) :
    (found = none → ∀ entry ∈ entries, closable entry.1 = false) ∧ ∀ best name, found = some (best, name) →
      (name, best) ∈ entries ∧ closable name = true ∧ ∀ entry ∈ entries, closable entry.1 = true → best ≤ entry.2 := by
  induction entries using reverseRecOn generalizing found with
  | nil => grind
  | append_singleton entries entry ih =>
    rw [foldl_append, foldl_cons, foldl_nil] at h
    have ih := ih rfl
    generalize entries.foldl (colder closable) none = before at h ih
    rcases before with - | ⟨best, name⟩ <;> grind [colder]

theorem mem_iff_getElem? : index ∈ s.openIndexes ↔ ∃ tick, s.openIndexes[index]? = some tick := by
  rw [ExtTreeMap.mem_iff_isSome_getElem?, Option.isSome_iff_exists]

theorem coldestClosableIndex_cases (h : Sound recent s) (hindex : index ∉ s.openIndexes) :
    (s.coldestClosableIndex locks index = none ∧ ∀ other ∈ s.openIndexes, s.refuses locks other = true) ∨
      ∃ victim ∈ s.openIndexes, s.coldestClosableIndex locks index = some victim ∧ s.refuses locks victim = false ∧
        ∀ other ∈ s.openIndexes, other ≠ victim → s.refuses locks other = false →
          recent.idxOf other < recent.idxOf victim := by
  have hne : ∀ other ∈ s.openIndexes, other ≠ index := fun other hother heq => hindex (heq ▸ hother)
  have hlisted : ∀ other ∈ s.openIndexes, ∃ tick, s.openIndexes[other]? = some tick ∧
    (other, tick) ∈ s.openIndexes.toList :=
    fun other hother => by
      obtain ⟨tick, htick⟩ := mem_iff_getElem?.mp hother
      exact ⟨tick, htick, ExtTreeMap.mem_toList_iff_getElem?_eq_some.mpr htick⟩
  unfold coldestClosableIndex
  cases hfound : s.openIndexes.toList.foldl (colder fun name => name ≠ index && !s.refuses locks name) none with
  | none =>
    refine .inl ⟨rfl, fun other hother => ?_⟩
    obtain ⟨tick, -, hmem⟩ := hlisted other hother
    simpa [hne other hother] using (coldest_spec hfound).1 rfl _ hmem
  | some found =>
    obtain ⟨best, victim⟩ := found
    obtain ⟨hmem, hclosable, hbest⟩ := (coldest_spec hfound).2 best victim rfl
    have hvictim := ExtTreeMap.mem_toList_iff_getElem?_eq_some.mp hmem
    have htracked : victim ∈ s.openIndexes := mem_iff_getElem?.mpr ⟨best, hvictim⟩
    refine .inr ⟨victim, htracked,
      rfl, by simpa [hne victim htracked] using hclosable, fun other hother hdiffers hfree => ?_⟩
    obtain ⟨tick, htick, hmem⟩ := hlisted other hother
    have hle := hbest _ hmem (by simpa [hne other hother] using hfree)
    have hlast := h.order other victim tick best htick hvictim
    have hne : recent.idxOf other ≠ recent.idxOf victim :=
      fun heq => hdiffers ((idxOf_inj (h.used other hother)).mp heq)
    omega

theorem closeIndex_of_closable (h : s.refuses locks index = false) :
    s.closeIndex locks index = (s.dropIndexCaches index, true) := by
  simp only [refuses, Bool.or_eq_false_iff, Bool.and_eq_false_iff, decide_eq_false_iff_not, not_not] at h
  obtain ⟨hwriter, hinit⟩ := h
  rw [closeIndex, if_neg (by simp [hinit]), if_neg]
  rintro ⟨hopen, hheld⟩
  rcases hwriter with hwriter | hwriter
  · exact absurd (hopen.symm.trans hwriter) (by decide)
  · exact absurd (hheld.symm.trans hwriter) (by decide)

theorem getElem?_dropIndexCaches (i : String) :
    (s.dropIndexCaches index).openIndexes[i]? = if i = index then none else s.openIndexes[i]? := by
  simp only [dropIndexCaches, ExtTreeMap.getElem?_erase, Std.compare_eq_iff_eq, @eq_comm _ index]

theorem kept_of_drop {i : String} {tick : Nat} (h : (s.dropIndexCaches index).openIndexes[i]? = some tick) :
    s.openIndexes[i]? = some tick := by
  rw [getElem?_dropIndexCaches, Option.ite_none_left_eq_some] at h
  exact h.2

theorem mem_dropIndexCaches : other ∈ (s.dropIndexCaches index).openIndexes ↔ other ≠ index ∧
    other ∈ s.openIndexes := by
  rw [mem_iff_getElem?, mem_iff_getElem?, getElem?_dropIndexCaches]
  split <;> simp_all

theorem Sound.drop (h : Sound recent s) (index : String) : Sound recent (s.dropIndexCaches index) where
  tracked i hopen := by
    rw [mem_dropIndexCaches]
    simp only [dropIndexCaches, update_apply] at hopen
    by_cases hi : i = index
    · simp [hi] at hopen
    · exact ⟨hi, h.tracked i (by simpa [hi] using hopen)⟩
  used i hi := h.used i (mem_dropIndexCaches.mp hi).2
  ticks i tick htick := h.ticks i tick (kept_of_drop htick)
  order i j a b hi hj := h.order i j a b (kept_of_drop hi) (kept_of_drop hj)

theorem Evicts.sound (e : Evicts recent locks s s') (h : Sound recent s) : Sound recent s' := by
  induction e with
  | nothing => exact h
  | victim _ _ _ _ ih => exact ih (h.drop _)

theorem Evicts.kept (e : Evicts recent locks s s') {tick : Nat} (h : s'.openIndexes[other]? = some tick) :
    s.openIndexes[other]? = some tick := by
  induction e with
  | nothing => exact h
  | victim _ _ _ _ ih => exact kept_of_drop (ih h)

theorem Evicts.openTick (e : Evicts recent locks s s') : s'.openTick = s.openTick := by
  induction e with
  | nothing => rfl
  | victim _ _ _ _ ih => exact ih

theorem makeRoom_spec {rounds skips : Nat} (h : Sound recent s) (hindex : index ∉ s.openIndexes)
    (hrounds : s.openIndexes.size < rounds) : Evicts recent locks s (makeRoom cap locks index rounds skips s) ∧
      ((makeRoom cap locks index rounds skips s).openIndexes.size < cap ∨
        ∀ other ∈ (makeRoom cap locks index rounds skips s).openIndexes,
          (makeRoom cap locks index rounds skips s).refuses locks other = true) := by
  induction rounds generalizing s with
  | zero => omega
  | succ rounds ih =>
    rw [makeRoom]
    split
    · rename_i hroom
      exact ⟨.nothing, .inl hroom⟩
    · rcases @coldestClosableIndex_cases _ _ locks _ h hindex with ⟨hnone, hbusy⟩ |
        ⟨victim, htracked, hsome, hclosable, hcoldest⟩
      · rw [hnone]
        exact ⟨.nothing, .inr hbusy⟩
      · rw [hsome]
        dsimp only
        rw [closeIndex_of_closable hclosable]
        have hsize : (s.dropIndexCaches victim).openIndexes.size + 1 = s.openIndexes.size := by
          obtain ⟨tick, htick⟩ := mem_iff_getElem?.mp htracked
          have hpos := length_pos_of_mem (ExtTreeMap.mem_toList_iff_getElem?_eq_some.mpr htick)
          rw [ExtTreeMap.length_toList] at hpos
          rw [dropIndexCaches, ExtTreeMap.size_erase, if_pos (ExtTreeMap.mem_iff_contains.mp htracked)]
          omega
        obtain ⟨hevicts, hend⟩ := ih (h.drop victim) (fun hmem => hindex (mem_dropIndexCaches.mp hmem).2) (by omega)
        exact ⟨.victim htracked hclosable hcoldest hevicts, hend⟩

theorem getElem?_insert_tick (tick : Nat) (i : String) :
    (s.openIndexes.insert index tick)[i]? = if i = index then some tick else s.openIndexes[i]? := by
  simp only [ExtTreeMap.getElem?_insert, Std.compare_eq_iff_eq, @eq_comm _ index]

theorem mem_insert_tick (tick : Nat) : other ∈ s.openIndexes.insert index tick ↔ other = index ∨
    other ∈ s.openIndexes := by
  rw [ExtTreeMap.mem_insert, Std.compare_eq_iff_eq, @eq_comm _ index]

theorem size_insert_tracked {tick : Nat} (h : index ∈ s.openIndexes) :
    (s.openIndexes.insert index tick).size = s.openIndexes.size := by
  rw [ExtTreeMap.size_insert, if_pos (ExtTreeMap.mem_iff_contains.mp h)]

/-- A use of an index: its tick is the latest. -/
theorem Sound.stamp {tick next : Nat} (h : Sound recent s)
    (hticks : ∀ (i : String) (a : Nat), s.openIndexes[i]? = some a → a < tick) (hnext : tick < next) :
    Sound (index :: recent) { s with openIndexes := s.openIndexes.insert index tick, openTick := next } where
  tracked i hopen := (mem_insert_tick tick).mpr (.inr (h.tracked i hopen))
  used i hi := by
    rcases (mem_insert_tick tick).mp hi with rfl | hi
    · exact mem_cons_self
    · exact mem_cons_of_mem _ (h.used i hi)
  ticks i a hi := by
    simp only [getElem?_insert_tick] at hi
    grind
  order i j a b hi hj := by
    simp only [getElem?_insert_tick] at hi hj
    grind [h.order i j a b]

/-- A use of an index that is not tracked leaves no tick. -/
theorem Sound.cons (h : Sound recent s) (hindex : index ∉ s.openIndexes) : Sound (index :: recent) s where
  tracked := h.tracked
  used i hi := mem_cons_of_mem _ (h.used i hi)
  ticks := h.ticks
  order i j a b hi hj := by
    grind [h.order i j a b, mem_iff_getElem?]

theorem Sound.touch (h : Sound recent s) (index : String) : Sound (index :: recent) (s.touchOpenIndex index) := by
  unfold touchOpenIndex
  split
  · exact h.stamp h.ticks (Nat.lt_succ_self _)
  · rename_i hindex
    exact h.cons hindex

theorem Sound.ticking (h : Sound recent s) : Sound recent { s with openTick := s.openTick + 1 } :=
  ⟨h.tracked, h.used, fun index tick htick => Nat.lt_succ_of_lt (h.ticks index tick htick), h.order⟩

/-- What an open leaves of the tracked indexes: it closes others to make room, if its own is not tracked yet. -/
structure Opened (cap : Nat) (recent : List String) (locks : IndexLocks) (index : String) (s s' : OpenSet) : Prop where
  tracked : index ∈ s.openIndexes → s'.openIndexes.size = s.openIndexes.size
  evicts : index ∉ s.openIndexes → ∃ start room, Evicts recent locks start room ∧
    start.openIndexes = s.openIndexes ∧ start.writers = s.writers ∧
      ∀ other, other ∈ s'.openIndexes ↔ other = index ∨ other ∈ room.openIndexes
  capped : index ∉ s.openIndexes →
    s'.openIndexes.size ≤ cap ∨ ∀ other ∈ s'.openIndexes, other ≠ index → s'.refuses locks other = true

structure Admits (cap : Nat) (recent : List String) (locks : IndexLocks) (index : String) (s s' : OpenSet) : Prop where
  sound : Sound (index :: recent) s'
  mem : index ∈ s'.openIndexes
  opened : Opened cap recent locks index s s'

theorem admitOpenIndex_spec (h : Sound recent s) (positive : 0 < cap) :
    Admits cap recent locks index s (s.admitOpenIndex cap locks index) := by
  unfold admitOpenIndex
  dsimp only
  split
  · rename_i hindex
    exact {
      sound := h.stamp h.ticks (Nat.lt_succ_self _)
      mem := (mem_insert_tick _).mpr (.inl rfl)
      opened :=
        { tracked := fun _ => size_insert_tracked hindex
          evicts := fun hnot => absurd hindex hnot
          capped := fun hnot => absurd hindex hnot } }
  · rename_i hindex
    obtain ⟨hevicts, hend⟩ := @makeRoom_spec recent { s with openTick := s.openTick + 1 } locks index cap
      (2 * s.openIndexes.size + 1) s.openIndexes.size h.ticking hindex (by dsimp only; omega)
    generalize makeRoom cap locks index _ _ _ = room at hevicts hend
    have hnot : index ∉ room.openIndexes := fun hmem => by
      obtain ⟨tick, htick⟩ := mem_iff_getElem?.mp hmem
      exact hindex (mem_iff_getElem?.mpr ⟨tick, hevicts.kept htick⟩)
    have htick : s.openTick < room.openTick := by
      rw [hevicts.openTick]
      exact Nat.lt_succ_self _
    have hsize : (room.openIndexes.insert index s.openTick).size = room.openIndexes.size + 1 := by
      rw [ExtTreeMap.size_insert, if_neg (by simpa using hnot)]
    exact {
      sound := (hevicts.sound h.ticking).stamp (fun i a hi => h.ticks i a (hevicts.kept hi)) htick
      mem := (mem_insert_tick _).mpr (.inl rfl)
      opened :=
        { tracked := fun hin => absurd hin hindex
          evicts := fun _ => ⟨_, room, hevicts, rfl, rfl, fun _ => mem_insert_tick _⟩
          capped := fun _ => by
            rcases hend with hroom | hbusy
            · exact .inl (hsize ▸ hroom)
            · exact .inr fun other hother hne => hbusy other (((mem_insert_tick _).mp hother).resolve_left hne) } }

theorem Admits.handles (h : Admits cap recent locks index s s') (writers readers : String → Bool)
    (hwriters : ∀ i, i ≠ index → writers i = s'.writers i) (hreaders : ∀ i, i ≠ index → readers i = s'.readers i) :
    Admits cap recent locks index s { s' with writers := writers, readers := readers } := by
  obtain ⟨hsound, hmem, hopened⟩ := h
  refine ⟨⟨fun i hi => ?_, hsound.used, hsound.ticks, hsound.order⟩, hmem, hopened.tracked,
    hopened.evicts, fun hnot => ?_⟩
  · by_cases heq : i = index
    · exact heq ▸ hmem
    · exact hsound.tracked i (by simpa only [hwriters i heq, hreaders i heq] using hi)
  · refine (hopened.capped hnot).imp id fun hbusy other hother hne => ?_
    have hbusy := hbusy other hother hne
    simp only [refuses, hwriters other hne] at hbusy ⊢
    exact hbusy

theorem step_spec (h : Sound recent s) (positive : 0 < cap) (step : CacheStep) :
    Sound ((step.uses s).toList ++ recent) (s.step cap step) ∧
      (step.opens s = none → (s.step cap step).openIndexes.size ≤ s.openIndexes.size) ∧
      ∀ index locks, step.opens s = some (index, locks) → Opened cap recent locks index s (s.step cap step) := by
  cases step with
  | touch index =>
    refine ⟨h.touch index, fun _ => ?_, nofun⟩
    simp only [step, touchOpenIndex]
    split
    · exact Nat.le_of_eq (size_insert_tracked (by assumption))
    · exact Nat.le_refl _
  | refreshReader index =>
    refine ⟨⟨fun i hi => h.tracked i (hi.imp id fun hreader => ?_), h.used, h.ticks, h.order⟩, fun _ =>
      Nat.le_refl _, nofun⟩
    simp only [step, update_apply] at hreader
    split at hreader
    · cases hreader
    · exact hreader
  | close index locks =>
    simp only [step, closeIndex]
    split_ifs
    · exact ⟨h, fun _ => Nat.le_refl _, nofun⟩
    · exact ⟨h, fun _ => Nat.le_refl _, nofun⟩
    · exact ⟨h.drop index, fun _ => ExtTreeMap.size_erase_le, nofun⟩
  | drop index => exact ⟨h.drop index, fun _ => ExtTreeMap.size_erase_le, nofun⟩
  | openWriter index locks opened =>
    simp only [uses, opens, step, getOrCreateIndexLocked]
    split
    · exact ⟨h, fun _ => Nat.le_refl _, nofun⟩
    · have hopened := (admitOpenIndex_spec h positive).handles
        (update (s.admitOpenIndex cap locks index).writers index true) (s.admitOpenIndex cap locks index).readers
        (fun i hi => update_of_ne hi ..) fun _ _ => rfl
      refine ⟨hopened.sound, nofun, ?_⟩
      rintro _ _ ⟨⟩
      exact hopened.opened
  | openReader index locks exists_ opened =>
    simp only [uses, opens, step, openReader]
    split
    · exact ⟨h, fun _ => Nat.le_refl _, nofun⟩
    · have hopened := (admitOpenIndex_spec h positive).handles (s.admitOpenIndex cap locks index).writers
        (update (s.admitOpenIndex cap locks index).readers index opened) (fun _ _ => rfl) fun i hi =>
          update_of_ne hi ..
      refine ⟨hopened.sound, nofun, ?_⟩
      rintro _ _ ⟨⟩
      exact hopened.opened

theorem run_sound (positive : 0 < cap) (steps : List CacheStep) : Sound (OpenSet.recent cap steps) (run cap steps) := by
  have all : ∀ (steps : List CacheStep) (found : OpenSet × List String), Sound found.2 found.1 →
      Sound (steps.foldl (fun found step => (found.1.step cap step, (step.uses found.1).toList ++ found.2)) found).2
        (steps.foldl (step cap) found.1) := by
    intro steps
    induction steps with
    | nil => exact fun _ h => h
    | cons step steps ih => exact fun found h => ih (found.1.step cap step, _) (step_spec h positive step).1
  exact all steps ({}, []) ⟨by simp, by simp, by simp, by simp⟩

end OpenSet

/-- Along every run of a shard with a cap, an index with a writer or a reader is tracked; only an open of an index
    that is not tracked adds one; and such an open closes, one after another, the index used longest ago of those
    that do not refuse, until the cap holds or every other one refuses. -/
theorem open_indexes_capped (cap : Nat) (positive : 0 < cap) (steps : List CacheStep) (step : CacheStep) :
    let before := OpenSet.run cap steps
    let after := before.step cap step
    (∀ index, after.writers index = true ∨ after.readers index = true → index ∈ after.openIndexes) ∧
      (step.opens before = none → after.openIndexes.size ≤ before.openIndexes.size) ∧
      ∀ index locks, step.opens before = some (index, locks) →
        OpenSet.Opened cap (OpenSet.recent cap steps) locks index before after := by
  have hspec := step_spec (OpenSet.run_sound positive steps) positive step
  exact ⟨hspec.1.tracked, hspec.2⟩

theorem open_indexes_capped_evicts :
    perShardOpenIndexCap 3 4 = 1 ∧
      (OpenSet.run 1 (CacheStep.getOrCreateIndex "a" {} true ++ getReader "b" {} true true)).openIndexes.keys = ["b"] ∧
      OpenSet.Opened 1 (OpenSet.recent 1 (CacheStep.getOrCreateIndex "a" {} true ++ [.touch "b"])) {} "b"
        (OpenSet.run 1 (CacheStep.getOrCreateIndex "a" {} true ++ [.touch "b"]))
        ((OpenSet.run 1 (CacheStep.getOrCreateIndex "a" {} true ++ [.touch "b"])).step 1
        (.openReader "b" {} true true)) :=
  ⟨rfl, by decide +kernel, (open_indexes_capped 1 Nat.one_pos _ (.openReader "b" {} true true)).2.2 "b" {} (by rfl)⟩

end CameoDb
