import CameoDb.Lib.Checked
import CameoDb.Mcp.FederatedSearch

/-! # What a federated answer keeps of its parts

The merge drops what an index says of its own shards, and a response that is trimmed has its notes written over. -/

namespace CameoDb.Mcp
open List NamedSearch

section Trim
variable {D : Type}

theorem keptHits_of_pos (hitBytes : String × D → Nat) (maxBytes used : Nat) {kept : Nat} (hits : List (String × D))
    (hkept : 0 < kept) :
    keptHits hitBytes maxBytes used kept hits ≤ kept + hits.length ∧
      (keptHits hitBytes maxBytes used kept hits = kept + hits.length ↔
        hits = [] ∨ used + (hits.map fun h => hitBytes h + 1).sum ≤ maxBytes) := by
  induction hits generalizing used kept with
  | nil => simp [keptHits]
  | cons hit rest ih =>
    obtain ⟨hle, hall⟩ := @ih (used + hitBytes hit + 1) (kept + 1) (by omega)
    simp only [keptHits, hkept, true_and, length_cons, reduceCtorEq, false_or, map_cons, sum_cons]
    split
    · exact ⟨by omega, by omega⟩
    · refine ⟨by omega, ?_⟩
      rw [show kept + (rest.length + 1) = kept + 1 + rest.length by omega, hall]
      constructor
      · rintro (rfl | hfits)
        · simp only [map_nil, sum_nil]
          omega
        · omega
      · exact fun hfits => .inr (by omega)

/-- The whole page fits in a message, or is of one hit at most. -/
def Fits (bytes : JsonBytes D) (response : FederatedResponse D) (maxBytes : Nat) : Prop :=
  response.hits.length ≤ 1 ∨
    bytes.envelope { response with hits := [] } + (response.hits.map fun h => bytes.hit h + 1).sum ≤ maxBytes

/-- The response before and after it is cut: a front of the hits stays, with the rest counted, and the notes stay if
    the whole page does. -/
theorem capResponseBytes_spec {bytes : JsonBytes D} {response capped : FederatedResponse D} {maxBytes : Nat}
    (hnone : response.omittedHits = 0) (h : capResponseBytes bytes response maxBytes = capped) :
    capped.errors = response.errors ∧ capped.hits <+: response.hits ∧ capped.hitsReturned = capped.hits.length ∧
      capped.hitsReturned + capped.omittedHits = response.hits.length ∧
      (Fits bytes response maxBytes → capped.warning = response.warning) ∧
      (¬ Fits bytes response maxBytes → ∃ omitted, capped.warning = [.leftOut omitted maxBytes]) := by
  have hspec : keptHits bytes.hit maxBytes (bytes.envelope { response with hits := [] }) 0 response.hits ≤
    response.hits.length ∧
      (keptHits bytes.hit maxBytes (bytes.envelope { response with hits := [] }) 0 response.hits =
        response.hits.length ↔ Fits bytes response maxBytes) := by
    rw [Fits]
    cases response.hits with
    | nil => simp [keptHits]
    | cons hit rest =>
      obtain ⟨hle, hall⟩ := keptHits_of_pos bytes.hit maxBytes
        (bytes.envelope { response with hits := [] } + bytes.hit hit + 1)
        rest Nat.one_pos
      simp only [keptHits, Nat.lt_irrefl, false_and, ↓reduceIte, Nat.zero_add, length_cons, map_cons, sum_cons]
      refine ⟨by omega, ?_⟩
      rw [Nat.add_comm rest.length, hall, ← length_eq_zero_iff]
      omega
  obtain ⟨hle, hall⟩ := hspec
  subst h
  simp only [capResponseBytes]
  split
  · refine ⟨rfl, take_prefix .., by simp [hle], by dsimp only; omega, fun hfits => ?_, fun _ => ⟨_, rfl⟩⟩
    rw [← hall] at hfits
    omega
  · refine ⟨rfl, take_prefix .., by simp [hle], by dsimp only; omega, fun _ => rfl, fun hnot => ?_⟩
    rw [← hall] at hnot
    omega

end Trim

theorem annotateSearchResponse_eq {K D : Type} (query : FederatedQuery K)
    {response : FederatedResponse D} (totalHits : Nat)
    (hnone : response.warning = []) : annotateSearchResponse query response totalHits =
      { response with warning := searchNotes query response totalHits } := by
  simp only [annotateSearchResponse]
  split
  · rename_i hempty
    rw [isEmpty_iff.mp hempty, ← hnone]
  · rfl

/-- The notes about the page rather than the searches. -/
def Note.IsOnPage : Note → Prop
  | pagedPastTheEnd .. | zeroResults _ | shortPage .. => True
  | approximateSort _ | narrowedDefaultFields .. | leftOut .. => False

theorem mem_insertMember {members : List (String × String)} {key value : String} {m : String × String} :
    m ∈ insertMember members key value ↔ m = (key, value) ∨ m ∈ members ∧ m.1 ≠ key := by
  unfold insertMember
  split
  · rename_i h
    obtain ⟨old, hold, hkey⟩ := any_eq_true.mp h
    simp only [decide_eq_true_eq] at hkey
    rw [mem_map]
    constructor
    · rintro ⟨n, hn, rfl⟩
      by_cases hn' : n.1 = key
      · exact .inl (if_pos hn')
      · rw [if_neg hn']
        exact .inr ⟨hn, hn'⟩
    · rintro (rfl | ⟨hm, hne⟩)
      · exact ⟨old, hold, if_pos hkey⟩
      · exact ⟨m, hm, if_neg hne⟩
  · rename_i h
    simp only [any_eq_true, decide_eq_true_eq, not_exists, not_and] at h
    rw [mem_append, mem_singleton, or_comm]
    exact or_congr_right ⟨fun hm => ⟨hm, h m hm⟩, And.left⟩

section Merge
variable {K D : Type} {query : FederatedQuery K} {searches : List (NamedSearch K D)}
  {arrivals done : List (NamedSearch K D × Nat)} {g g' : Gathered K D}

namespace NamedSearch

def answer? (s : NamedSearch K D) : Option (SearchAnswer K D) := s.result.toOption

def approximateSort (s : NamedSearch K D) : Option String := s.answer?.bind fun answer => answer.notes.approximateSort

def narrowed (s : NamedSearch K D) : Option String := s.answer?.bind fun answer => answer.notes.narrowedDefaultFields

def block? (s : NamedSearch K D) : Option (List (Hit K (String × D))) :=
  s.answer?.map fun answer => stamp s.index answer.hits

def Failed (s : NamedSearch K D) : Prop := s.answer? = none

/-- The index answered, and its answer says that not all of it was read. -/
def ReportsFailures (s : NamedSearch K D) : Prop :=
  ∃ answer, s.answer? = some answer ∧ (answer.errors ≠ [] ∨ answer.shards.failed ≠ 0)

end NamedSearch

def totalHits (searches : List (NamedSearch K D)) : Nat :=
  (searches.map fun s => s.answer?.elim 0 fun a => a.totalHits).sum

/-- The page of the merged order, the indexes in the order they were named. -/
def page (query : FederatedQuery K) (searches : List (NamedSearch K D)) : List (String × D) :=
  (orderHitBlocks query.cmp (searches.filterMap block?) query.window).map Hit.body

/-- A note the page calls for. -/
def OnPage (query : FederatedQuery K) (searches : List (NamedSearch K D)) (note : Note) : Prop :=
  page query searches = [] ∧ note ∈ emptyPageNotes query (totalHits searches) ∨
    shortPageNote (page query searches).length (totalHits searches) query.window.offset query.window.limit = some note

/-- The notes that the parts of an answer and its page call for. -/
inductive Applies (query : FederatedQuery K) (searches : List (NamedSearch K D)) : Note → Prop where
  | onPage {note : Note} : OnPage query searches note → Applies query searches note
  | approximateSort {s : NamedSearch K D} {field : String} : s ∈ searches → s.approximateSort = some field →
      Applies query searches (.approximateSort field)
  | narrowed {s : NamedSearch K D} {account : String} : s ∈ searches → s.narrowed = some account →
      Applies query searches (.narrowedDefaultFields s.index account)

theorem OnPage.isOnPage {note : Note} (h : OnPage query searches note) : note.IsOnPage := by
  rcases h with ⟨-, h⟩ | h
  · unfold emptyPageNotes pagedPastTheEnd at h
    split at h
    · rename_i hpast
      split at hpast <;> cases hpast
      rw [mem_singleton.mp h]
      trivial
    · split at h
      · obtain ⟨_, -, rfl⟩ := mem_map.mp h
        trivial
      · cases h
  · simp only [shortPageNote] at h
    split at h
    · cases h
    · split at h <;> cases h
      trivial

theorem Applies.ne_leftOut {note : Note} {omitted maxBytes : Nat} (h : Applies query searches note) :
    note ≠ .leftOut omitted maxBytes := by
  rintro rfl
  cases h with
  | onPage hpage => exact hpage.isOnPage

/-- What was gathered from the indexes that came back. -/
structure Gathers (done : List (NamedSearch K D × Nat)) (g : Gathered K D) : Prop where
  blocks : g.blocks = done.filterMap fun a => a.1.block?.map (a.2, ·)
  totalHits : g.totalHits = totalHits (done.map Prod.fst)
  errors : g.errors.map Prod.fst = (done.map Prod.fst).filterMap fun s => s.answer?.elim (some s.index) fun _ => none
  approximate : g.approximateSort = (done.map Prod.fst).findSome? approximateSort
  /-- An account is one that an index of that name gave. -/
  account : ∀ m ∈ g.narrowedDefaultFields, ∃ s ∈ done.map Prod.fst, s.index = m.1 ∧ s.narrowed = some m.2
  accounted : ∀ s ∈ done.map Prod.fst, s.narrowed.isSome → ∃ m ∈ g.narrowedDefaultFields, m.1 = s.index
  /-- There is one account for a name. -/
  single : ∀ m ∈ g.narrowedDefaultFields, ∀ n ∈ g.narrowedDefaultFields, m.1 = n.1 → m = n

theorem Gathers.empty : Gathers ([] : List (NamedSearch K D × Nat)) .empty := by
  constructor <;> simp [Gathered.empty, Mcp.totalHits]

theorem Gathers.add {arrival : NamedSearch K D × Nat} (h : Gathers done g) (hadd : g.add arrival = .ok g') :
    Gathers (done ++ [arrival]) g' := by
  obtain ⟨⟨index, result⟩, place⟩ := arrival
  obtain ⟨hblocks, htotal, herrors, happroximate, haccount, haccounted, hsingle⟩ := h
  cases result with
  | error failure =>
    cases hadd
    have hanswer : (NamedSearch.mk index (.error failure) : NamedSearch K D).answer? = none := rfl
    refine ⟨?_, ?_, ?_, ?_, ?_, ?_, hsingle⟩
    · simp [hblocks, block?, hanswer]
    · simp [htotal, Mcp.totalHits, hanswer]
    · simp [herrors, hanswer]
    · simp [happroximate, approximateSort, hanswer, findSome?_append]
    · grind
    · grind [narrowed]
  | ok answer =>
    have hanswer : (NamedSearch.mk index (.ok answer) : NamedSearch K D).answer? = some answer := rfl
    simp only [Gathered.add] at hadd
    split at hadd
    · cases hadd
    · cases hadd
      refine ⟨?_, ?_, ?_, ?_, ?_, ?_, ?_⟩
      · simp [hblocks, block?, hanswer]
      · simp [htotal, Mcp.totalHits, hanswer]
      · simp [herrors, hanswer]
      · simp [happroximate, approximateSort, hanswer, findSome?_append]
      all_goals
        have hnarrowed : (NamedSearch.mk index (.ok answer) : NamedSearch K D).narrowed =
          answer.notes.narrowedDefaultFields := rfl
        dsimp only
        cases hfound : answer.notes.narrowedDefaultFields <;> rw [hfound] at hnarrowed
      · grind
      · grind [mem_insertMember]
      · grind
      · rename_i account
        intro s hs hsome
        by_cases hindex : s.index = index
        · exact ⟨(index, account), mem_insertMember.mpr (.inl rfl), hindex.symm⟩
        · simp only [map_append, map_cons, map_nil, mem_append, mem_singleton] at hs
          rcases hs with hs | rfl
          · obtain ⟨m, hm, hindex'⟩ := haccounted s hs hsome
            exact ⟨m, mem_insertMember.mpr (.inr ⟨hm, hindex' ▸ hindex⟩), hindex'⟩
          · exact absurd rfl hindex
      · exact hsingle
      · grind [mem_insertMember]

theorem Gathers.foldlM (h : Gathers done g) (hrun : arrivals.foldlM Gathered.add g = .ok g') :
    Gathers (done ++ arrivals) g' := by
  induction arrivals generalizing done g with
  | nil =>
    cases hrun
    rwa [append_nil]
  | cons arrival rest ih =>
    rw [foldlM_cons] at hrun
    obtain ⟨next, hnext, hrun⟩ := Checked.bind_eq_ok.mp hrun
    rw [append_cons]
    exact ih (h.add hnext) hrun

/-- The blocks are put in the order the indexes were named in, whichever came back first. -/
theorem Gathers.sorted (h : Gathers arrivals g) (hnamed : arrivals.Perm searches.zipIdx) :
    (g.blocks.insertionSort fun a b => a.1 ≤ b.1).map Prod.snd = searches.filterMap block? := by
  have hplace : ∀ b ∈ g.blocks, ∃ s, searches[b.1]? = some s ∧ s.block? = some b.2 := by
    intro b hb
    rw [h.blocks, mem_filterMap] at hb
    obtain ⟨a, ha, hblock⟩ := hb
    obtain ⟨block, hfound, rfl⟩ := Option.map_eq_some_iff.mp hblock
    exact ⟨a.1, mem_zipIdx_iff_getElem?.mp (hnamed.mem_iff.mp ha), hfound⟩
  have horder : searches.zipIdx.Pairwise fun a b => a.2 < b.2 := by
    rw [← pairwise_map (f := Prod.snd) (R := (· < ·)), zipIdx_map_snd]
    exact pairwise_lt_range'
  have hsorted : (g.blocks.insertionSort fun a b => a.1 ≤ b.1) = searches.zipIdx.filterMap fun a =>
      a.1.block?.map (a.2, ·) := by
    have hperm := hnamed.filterMap fun a => a.1.block?.map (a.2, ·)
    rw [← h.blocks] at hperm
    refine List.Perm.eq_of_pairwise (fun a b ha hb hab hba => ?_) (pairwise_insertionSort ..) (horder.filterMap _ ?_)
      ((perm_insertionSort _ _).trans hperm)
    · obtain ⟨s, hs, hblock⟩ := hplace a ((perm_insertionSort _ _).mem_iff.mp ha)
      obtain ⟨s', hs', hblock'⟩ := hplace b (hperm.mem_iff.mpr hb)
      have hsame : a.1 = b.1 := Nat.le_antisymm hab hba
      rw [hsame, hs'] at hs
      cases hs
      exact Prod.ext hsame (Option.some.inj (hblock.symm.trans hblock'))
    · intro a b hab x hx y hy
      obtain ⟨_, -, rfl⟩ := Option.map_eq_some_iff.mp hx
      obtain ⟨_, -, rfl⟩ := Option.map_eq_some_iff.mp hy
      exact Nat.le_of_lt hab
  rw [hsorted, map_filterMap, ← zipIdx_map_fst 0 searches, filterMap_map, zipIdx_map_fst]
  simp [Function.comp_def]

theorem perm_of_named (hnamed : arrivals.Perm searches.zipIdx) : (arrivals.map Prod.fst).Perm searches := by
  simpa only [zipIdx_map_fst] using hnamed.map Prod.fst

/-- The response that is cut to size: its page, and what it explains. -/
theorem Gathers.response (query : FederatedQuery K) (h : Gathers arrivals g) (hnamed : arrivals.Perm searches.zipIdx) :
    (g.response query).hits = page query searches ∧ (g.response query).omittedHits = 0 ∧
      (g.response query).errors = g.errors ∧
      (g.response query).warning =
        (if page query searches = [] then emptyPageNotes query (Mcp.totalHits searches) else []) ++
        (shortPageNote (page query searches).length
        (Mcp.totalHits searches) query.window.offset query.window.limit).toList ++
        (g.approximateSort.map .approximateSort).toList ++ narrowedNotes g.narrowedDefaultFields := by
  have htotal : g.totalHits = Mcp.totalHits searches := by
    rw [h.totalHits, Mcp.totalHits, Mcp.totalHits]
    exact ((perm_of_named hnamed).map _).sum_nat
  simp only [Gathered.response, annotateSearchResponse_eq, searchNotes, h.sorted hnamed, htotal, page, length_map,
    map_eq_nil_iff, length_eq_zero_iff, true_and]

theorem Gathers.mem_warning (query : FederatedQuery K) (h : Gathers arrivals g) (hnamed : arrivals.Perm searches.zipIdx)
    (note : Note) : note ∈ (g.response query).warning ↔
      OnPage query searches note ∨ (∃ field, g.approximateSort = some field ∧ .approximateSort field = note) ∨
      (∀ m ∈ g.narrowedDefaultFields, m.1 ≠ "searched") ∧
        ∃ m ∈ g.narrowedDefaultFields, .narrowedDefaultFields m.1 m.2 = note := by
  rw [(h.response query hnamed).2.2.2, mem_append, mem_append, mem_append, or_assoc]
  refine or_congr (or_congr ?_ Option.mem_toList) (or_congr ?_ ?_)
  · split <;> simp [*]
  · rw [Option.mem_toList, Option.map_eq_some_iff]
  · have hshadowed : (g.narrowedDefaultFields.any fun a => decide (a.1 = "searched")) = true ↔
        ¬ ∀ m ∈ g.narrowedDefaultFields, m.1 ≠ "searched" := by
      simp only [any_eq_true, decide_eq_true_eq, ne_eq, not_forall, Decidable.not_not, exists_prop]
    rw [narrowedNotes]
    split
    · rename_i h
      exact iff_of_false not_mem_nil fun hnote => hshadowed.mp h hnote.1
    · rename_i h
      rw [hshadowed, Decidable.not_not] at h
      rw [mem_map, and_iff_right h]

theorem Gathers.named (h : Gathers arrivals g) (hnamed : arrivals.Perm searches.zipIdx) (index : String) :
    (∃ e ∈ g.errors, e.1 = index) ↔ ∃ s ∈ searches, s.Failed ∧ s.index = index := by
  rw [← mem_map, h.errors, mem_filterMap]
  refine exists_congr fun s => and_congr (perm_of_named hnamed).mem_iff ?_
  rw [NamedSearch.Failed]
  cases s.answer? <;> simp

/-- What an answer keeps of its parts. -/
structure KeepsQualifications (query : FederatedQuery K) (searches : List (NamedSearch K D))
    (response : FederatedResponse D) : Prop where
  failed : ∀ s ∈ searches, s.Failed → ∃ e ∈ response.errors, e.1 = s.index
  reported : ∀ s ∈ searches, s.ReportsFailures → ∃ e ∈ response.errors, e.1 = s.index
  explained : ∀ note, Applies query searches note → note ∈ response.warning
  front : response.hits <+: page query searches
  counted : response.hitsReturned = response.hits.length ∧
    response.hitsReturned + response.omittedHits = (page query searches).length

/-- What the merge and the notes can carry. -/
structure Carries (searches : List (NamedSearch K D)) : Prop where
  oneOrder : ∀ s ∈ searches, ∀ t ∈ searches, ∀ field field', s.approximateSort = some field →
    t.approximateSort = some field' → field = field'
  oneAccount : ∀ s ∈ searches, ∀ t ∈ searches, ∀ account account', s.index = t.index → s.narrowed = some account →
    t.narrowed = some account' → account = account'
  unshadowed : ∀ s ∈ searches, s.narrowed.isSome → s.index ≠ "searched"

/-- The notes on the page are always there; those of the indexes are if there is one sort field, one account for
    each name, and no account under the name by which an account is told from a map. -/
theorem Gathers.explains_iff (h : Gathers arrivals g) (hnamed : arrivals.Perm searches.zipIdx) :
    (∀ note, Applies query searches note → note ∈ (g.response query).warning) ↔ Carries searches := by
  have hmem s : s ∈ arrivals.map Prod.fst ↔ s ∈ searches := (perm_of_named hnamed).mem_iff
  have hwarning note := h.mem_warning query hnamed note
  constructor
  · intro hall
    have hfield {s : NamedSearch K D} {field : String} (hs : s ∈ searches) (hsort : s.approximateSort = some field) :
        g.approximateSort = some field := by
      rcases (hwarning _).mp (hall _ (.approximateSort hs hsort)) with hnote | ⟨_, hfound, heq⟩ | ⟨-, _, -, heq⟩
      · exact hnote.isOnPage.elim
      · cases heq
        exact hfound
      · cases heq
    have haccount {s : NamedSearch K D} {account : String} (hs : s ∈ searches) (hnarrowed : s.narrowed = some account) :
        (s.index, account) ∈ g.narrowedDefaultFields ∧ s.index ≠ "searched" := by
      rcases (hwarning _).mp (hall _ (.narrowed hs hnarrowed)) with hnote | ⟨_, -, heq⟩ | ⟨hunshadowed, m, hm, heq⟩
      · exact hnote.isOnPage.elim
      · cases heq
      · obtain ⟨hindex, rfl⟩ := Note.narrowedDefaultFields.inj heq
        rw [← hindex]
        exact ⟨hm, hunshadowed m hm⟩
    refine ⟨fun s hs t ht field field' hs' ht' => ?_, fun s hs t ht account account' hindex hs' ht' => ?_,
      fun s hs hsome => ?_⟩
    · exact Option.some.inj ((hfield hs hs').symm.trans (hfield ht ht'))
    · exact congrArg Prod.snd (h.single _ (haccount hs hs').1 _ (haccount ht ht').1 hindex)
    · obtain ⟨account, haccounted⟩ := Option.isSome_iff_exists.mp hsome
      exact (haccount hs haccounted).2
  · rintro ⟨horder, haccount, hunshadowed⟩ note happlies
    rw [hwarning]
    cases happlies with
    | onPage hpage => exact .inl hpage
    | @approximateSort s field hs hfield =>
      right; left
      cases hfound : g.approximateSort with
      | none =>
        rw [h.approximate, findSome?_eq_none_iff] at hfound
        cases (hfound s ((hmem s).mpr hs)).symm.trans hfield
      | some first =>
        obtain ⟨t, ht, hfirst⟩ := exists_of_findSome?_eq_some (h.approximate.symm.trans hfound)
        exact ⟨first, rfl, congrArg Note.approximateSort (horder t ((hmem t).mp ht) s hs first field hfirst hfield)⟩
    | @narrowed s account hs hnarrowed =>
      refine .inr (.inr ⟨fun m hm => ?_, ?_⟩)
      · obtain ⟨t, ht, hindex, hgiven⟩ := h.account m hm
        exact hindex ▸ hunshadowed t ((hmem t).mp ht) (Option.isSome_of_mem hgiven)
      · obtain ⟨m, hm, hindex⟩ := h.accounted s ((hmem s).mpr hs) (Option.isSome_of_mem hnarrowed)
        obtain ⟨t, ht, hindex', hgiven⟩ := h.account m hm
        rw [← hindex, haccount s hs t ((hmem t).mp ht) account m.2 (hindex.symm.trans hindex'.symm) hnarrowed hgiven]
        exact ⟨m, hm, rfl⟩

/-- A failed index is always named, and what is kept of the page is its front, with the rest counted. The rest holds
    exactly if no index that answered reports a failure of its own, unless it also failed under the same name; the
    page fits in the message where there is anything to explain; and the notes can carry what is to explain. -/
theorem federated_answer_keeps_qualifications_iff (bytes : JsonBytes D) (query : FederatedQuery K) (maxBytes : Nat)
    (searches : List (NamedSearch K D)) (arrivals : List (NamedSearch K D × Nat))
    (hnamed : arrivals.Perm searches.zipIdx)
    (g : Gathered K D) (hg : arrivals.foldlM Gathered.add .empty = .ok g) (response : FederatedResponse D)
    (h : searchAcrossIndexes bytes query maxBytes arrivals = .ok response) :
    KeepsQualifications query searches response ↔
      (∀ s ∈ searches, s.ReportsFailures → ∃ t ∈ searches, t.Failed ∧ t.index = s.index) ∧
      ((∃ note, Applies query searches note) → Fits bytes (g.response query) maxBytes) ∧
      Carries searches := by
  have hgathers : Gathers arrivals g := Gathers.empty.foldlM hg
  have herrors index : (∃ e ∈ g.errors, e.1 = index) ↔ ∃ s ∈ searches, s.Failed ∧ s.index = index :=
    hgathers.named hnamed index
  obtain ⟨hhits, hnone, herrors', -⟩ := hgathers.response query hnamed
  rw [← herrors'] at herrors
  rw [searchAcrossIndexes, hg] at h
  dsimp only [bind, Except.bind] at h
  split at h
  · cases h
  · obtain ⟨hsame, hfront, hreturned, hcounted, hkept, htrimmed⟩ := capResponseBytes_spec hnone (Except.ok.inj h)
    rw [hhits] at hfront hcounted
    constructor
    · rintro ⟨-, hreported, hexplained, -, -⟩
      have hfits : (∃ note, Applies query searches note) → Fits bytes (g.response query) maxBytes := by
        rintro ⟨note, hnote⟩
        by_contra hlarge
        obtain ⟨omitted, hwarning⟩ := htrimmed hlarge
        exact hnote.ne_leftOut (mem_singleton.mp (hwarning ▸ hexplained note hnote))
      refine ⟨fun s hs hfailures => (herrors _).mp (hsame ▸ hreported s hs hfailures), hfits, ?_⟩
      exact (hgathers.explains_iff hnamed).mp fun note hnote => hkept (hfits ⟨note, hnote⟩) ▸ hexplained note hnote
    · rintro ⟨hwhole, hfits, hcarries⟩
      refine ⟨fun s hs hfailed => ?_, fun s hs hfailures => ?_, fun note hnote => ?_, hfront, hreturned, hcounted⟩
      · exact hsame ▸ (herrors _).mpr ⟨s, hs, hfailed, rfl⟩
      · exact hsame ▸ (herrors _).mpr (hwhole s hs hfailures)
      · rw [hkept (hfits ⟨note, hnote⟩)]
        exact (hgathers.explains_iff hnamed).mpr hcarries note hnote

end Merge

/-! ### One failed shard, one approximate order -/

/-- Two hits of 150 bytes each, in an approximate order. -/
def booksSearch : NamedSearch Nat Nat :=
  ⟨"books", .ok {
    hits := [⟨0, 150⟩, ⟨1, 150⟩], hitsReturned := 2, totalHits := 2, limit := 10, offset := 0,
    shards := ⟨1, 1, 0⟩, nodes := some 1
    errors := [], searched := [(1, 0)], notes := ⟨[], some "title", none⟩ }⟩

/-- One of two shards could not be read. -/
def shelvesSearch : NamedSearch Nat Nat :=
  ⟨"shelves", .ok {
    hits := [], hitsReturned := 0, totalHits := 0, limit := 10, offset := 0, shards := ⟨2, 1, 1⟩, nodes := some 1
    errors := [(1, .io)], searched := [(1, 0)], notes := .empty }⟩

/-- A hit stands for its bytes; the rest of the response takes 546. -/
def bookBytes : JsonBytes Nat := ⟨fun _ => 546, Prod.snd⟩

theorem federated_answer_drops_failure_and_note :
    ∃ response, searchAcrossIndexes bookBytes ⟨compare, none, ⟨0, 10⟩⟩ 800
    [(booksSearch, 0), (shelvesSearch, 1)] = .ok response ∧ shelvesSearch.ReportsFailures ∧ response.errors = [] ∧
      Applies ⟨compare, none, ⟨0, 10⟩⟩ [booksSearch, shelvesSearch] (.approximateSort "title") ∧
      response.warning = [.leftOut 1 800] ∧
      ¬ KeepsQualifications ⟨compare, none, ⟨0, 10⟩⟩ [booksSearch, shelvesSearch] response := by
  have hfailures : shelvesSearch.ReportsFailures := ⟨_, rfl, .inl (cons_ne_nil _ _)⟩
  refine ⟨_, rfl, hfailures, rfl, .approximateSort (s := booksSearch) (by simp) rfl, rfl, fun h => ?_⟩
  obtain ⟨e, he, -⟩ := h.reported shelvesSearch (by simp) hfailures
  cases he

theorem federated_answer_keeps_books :
    ∃ response, searchAcrossIndexes bookBytes ⟨compare, none, ⟨0, 10⟩⟩ 4096 [(booksSearch, 0)] = .ok response ∧
      response.warning = [.approximateSort "title"] ∧ KeepsQualifications ⟨compare, none, ⟨0, 10⟩⟩
      [booksSearch] response := by
  refine ⟨_, rfl, rfl, (federated_answer_keeps_qualifications_iff bookBytes ⟨compare, none, ⟨0, 10⟩⟩ 4096 [booksSearch]
    [(booksSearch, 0)] (.refl _) _ rfl _ rfl).mpr ⟨?_, fun _ => .inr (by decide), ?_⟩⟩
  · rintro s hs ⟨answer, hanswer, hfailed⟩
    cases mem_singleton.mp hs
    cases hanswer
    simp at hfailed
  · constructor
    · intro s hs t ht field field' hs' ht'
      cases mem_singleton.mp hs
      cases mem_singleton.mp ht
      exact Option.some.inj (hs'.symm.trans ht')
    · intro s hs t ht account account' _ hs'
      cases mem_singleton.mp hs
      cases hs'
    · intro s hs hsome
      cases mem_singleton.mp hs
      cases hsome

end CameoDb.Mcp
