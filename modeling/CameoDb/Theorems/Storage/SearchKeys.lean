import CameoDb.Storage.SearchKeys
import CameoDb.Lib.TopSorted

/-! # Hits without a sort value

The merge takes hits with a sort value to stand before those without. A descending sort after the fetch does the
contrary. -/

namespace CameoDb
open List

def ValuedFirst (hits : List KeyHit) : Prop := hits.Pairwise fun a b => b.sortKey.isSome → a.sortKey.isSome

/-- Of the hits in order, the first `limit` have those with a value first, and none without a value where one with a
    value is cut. -/
def CutsValueless (limit : Nat) (ordered : List KeyHit) : Prop :=
  ValuedFirst (ordered.take limit) ∧
    ((∃ cut ∈ ordered.drop limit, cut.sortKey.isSome) → ∀ hit ∈ ordered.take limit, hit.sortKey.isSome)

theorem cutsValueless_append {valued rest : List KeyHit} (hvalued : ∀ hit ∈ valued, hit.sortKey.isSome)
    (hrest : ∀ hit ∈ rest, hit.sortKey = none) (limit : Nat) : CutsValueless limit (valued ++ rest) := by
  have hfirst : ValuedFirst (valued ++ rest) := by
    refine pairwise_append.mpr ⟨?_, ?_, fun a ha b _ _ => hvalued a ha⟩
    · exact List.Pairwise.imp_of_mem (fun ha _ _ _ => hvalued _ ha) (pairwise_of_forall fun _ _ => trivial)
    · refine List.Pairwise.imp_of_mem (fun _ hb _ hsome => ?_) (pairwise_of_forall fun _ _ => trivial)
      rw [hrest _ hb] at hsome
      cases hsome
  refine ⟨hfirst.sublist (take_sublist _ _), fun ⟨cut, hcut, hsome⟩ hit hhit => ?_⟩
  -- What is cut comes after what is returned, and has a value.
  unfold ValuedFirst at hfirst
  rw [← take_append_drop limit (valued ++ rest)] at hfirst
  exact (pairwise_append.mp hfirst).2.2 hit hhit cut hcut hsome

theorem not_cutsValueless_append {rest valued : List KeyHit} (hrest : ∀ hit ∈ rest, hit.sortKey = none)
    (hvalued : ∀ hit ∈ valued, hit.sortKey.isSome) (hnil : rest ≠ []) (hsome : valued ≠ []) {limit : Nat}
    (hlimit : limit ≠ 0) : ¬CutsValueless limit (rest ++ valued) := by
  rintro ⟨hfirst, hcut⟩
  obtain ⟨bare, rest, rfl⟩ := exists_cons_of_ne_nil hnil
  obtain ⟨hit, hhit⟩ := exists_mem_of_ne_nil _ hsome
  have hbare : bare.sortKey = none := hrest bare mem_cons_self
  obtain ⟨limit, rfl⟩ := Nat.exists_eq_succ_of_ne_zero hlimit
  rw [cons_append, Nat.succ_eq_add_one, take_succ_cons] at hfirst hcut
  have hmem : hit ∈ (rest ++ valued).take limit ++ (rest ++ valued).drop limit := by
    rw [take_append_drop]
    exact mem_append_right _ hhit
  rcases mem_append.mp hmem with hin | hout
  · have hlate := rel_of_pairwise_cons hfirst hin (hvalued hit hhit)
    rw [hbare] at hlate
    cases hlate
  · have hlate := hcut ⟨hit, by simpa using hout, hvalued hit hhit⟩ bare mem_cons_self
    rw [hbare] at hlate
    cases hlate

namespace KeySearch
variable {k : KeySearch} {limit : Nat} {spec : SortSpec}

/-! ### Column sorts -/

theorem cutsValueless_byColumn (column : String) (order : SortOrder) (limit : Nat) :
    CutsValueless limit ((k.byColumn column order).map fun hit => ⟨.placeholder, hit.doc.id, hit.sortKey column⟩) := by
  have hsplit := TopSorted.insertionSort_eq_append
    (fun a b : SearchMatch => (compareColumn order (a.sortKey column) (b.sortKey column)).isLE = true)
    (fun hit => (hit.sortKey column).isSome)
    (fun a b ha hb => by
      obtain ⟨x, hx⟩ := Option.isSome_iff_exists.mp ha
      have hy : b.sortKey column = none := by simpa using hb
      rw [hx, hy]
      exact ⟨rfl, by simp [compareColumn]⟩) k.matched
  rw [byColumn, hsplit, map_append]
  refine cutsValueless_append (fun hit hhit => ?_) (fun hit hhit => ?_) limit
  · obtain ⟨found, hfound, rfl⟩ := mem_map.mp hhit
    exact (mem_filter.mp ((mem_insertionSort _).mp hfound)).2
  · obtain ⟨found, hfound, rfl⟩ := mem_map.mp hhit
    simpa using (mem_filter.mp ((mem_insertionSort _).mp hfound)).2

theorem cutsValueless_byIp (column : String) (descending : Bool) (limit : Nat) :
    CutsValueless limit ((k.byIp column descending).map fun hit =>
      ⟨.placeholder, hit.doc.id, ipSortKey descending (hit.ipRank column descending)⟩) := by
  have hbare : ∀ hit : SearchMatch, (hit.ipRank column descending).1 = false →
      hit.ipRank column descending = (false, 0) := by
    intro hit h
    unfold SearchMatch.ipRank at h ⊢
    split at h
    · cases h
    · rfl
  have hsplit := TopSorted.insertionSort_eq_append
    (fun a b : SearchMatch => toLex (b.ipRank column descending) ≤ toLex (a.ipRank column descending))
    (fun hit => (hit.ipRank column descending).1)
    (fun a b ha hb => by
      rw [hbare b hb, Prod.Lex.toLex_le_toLex, Prod.Lex.toLex_le_toLex, ha]
      simp) k.matched
  rw [byIp, hsplit, map_append]
  refine cutsValueless_append (fun hit hhit => ?_) (fun hit hhit => ?_) limit
  · obtain ⟨found, hfound, rfl⟩ := mem_map.mp hhit
    have hp := (mem_filter.mp ((mem_insertionSort _).mp hfound)).2
    simp [ipSortKey, hp]
  · obtain ⟨found, hfound, rfl⟩ := mem_map.mp hhit
    have hp := (mem_filter.mp ((mem_insertionSort _).mp hfound)).2
    simpa [ipSortKey] using hp

/-! ### The sort after the fetch -/

def textOf (k : KeySearch) (field : String) (hit : SearchMatch) : Option (Option String) :=
  (k.document hit.doc.id).map fun doc => (doc.asObject.bind (JsonValue.member? · field)).bind JsonValue.asStr

/-- Of the hits fetched, some have text in the field and some do not. -/
def Mixed (k : KeySearch) (limit : Nat) (field : String) : Prop :=
  (∃ hit ∈ k.byScore.take (2 * limit), ∃ text, k.textOf field hit = some (some text)) ∧
    ∃ hit ∈ k.byScore.take (2 * limit), k.textOf field hit = some none

theorem mem_fetchedCandidates_iff {field : String} {c : Option String × KeyHit} :
    c ∈ k.fetchedCandidates limit field ↔
      ∃ hit ∈ k.byScore.take (2 * limit), ∃ value, k.textOf field hit = some value ∧
        c = (value, ⟨hit.score, hit.doc.id, value.map .str⟩) := by
  simp only [fetchedCandidates, textOf, mem_filterMap, Option.map_eq_some_iff]
  constructor
  · rintro ⟨hit, hhit, doc, hdoc, rfl⟩
    exact ⟨hit, hhit, _, ⟨doc, hdoc, rfl⟩, rfl⟩
  · rintro ⟨hit, hhit, value, ⟨doc, hdoc, rfl⟩, rfl⟩
    exact ⟨hit, hhit, doc, hdoc, rfl⟩

theorem mixed_iff {field : String} : k.Mixed limit field ↔
    (∃ c ∈ k.fetchedCandidates limit field, c.1.isSome) ∧ ∃ c ∈ k.fetchedCandidates limit field, c.1 = none := by
  constructor
  · rintro ⟨⟨hit, hhit, text, htext⟩, bare, hbare, hnone⟩
    exact ⟨⟨_, mem_fetchedCandidates_iff.mpr ⟨hit, hhit, _, htext, rfl⟩, rfl⟩,
      _, mem_fetchedCandidates_iff.mpr ⟨bare, hbare, _, hnone, rfl⟩, rfl⟩
  · rintro ⟨⟨c, hc, hsome⟩, d, hd, hnone⟩
    obtain ⟨hit, hhit, value, htext, rfl⟩ := mem_fetchedCandidates_iff.mp hc
    obtain ⟨bare, hbare, _, hbareText, rfl⟩ := mem_fetchedCandidates_iff.mp hd
    obtain ⟨text, rfl⟩ := Option.isSome_iff_exists.mp hsome
    obtain rfl := hnone
    exact ⟨⟨hit, hhit, text, htext⟩, bare, hbare, hbareText⟩

theorem mem_zipIdx_iff {α : Type} {l : List α} {P : α → Prop} : (∀ a ∈ l.zipIdx, P a.1) ↔ ∀ c ∈ l, P c := by
  rw [← forall_mem_map (f := Prod.fst), zipIdx_map_fst]

/-- The order after the fetch: the candidates with a text and those without, the latter last in ascending and first
    in descending order. -/
theorem byFetched_eq (k : KeySearch) (limit : Nat) (field : String) (order : SortOrder) :
    ∃ valued rest : List KeyHit, (∀ hit ∈ valued, hit.sortKey.isSome) ∧ (∀ hit ∈ rest, hit.sortKey = none) ∧
      (valued = [] ↔ ∀ c ∈ k.fetchedCandidates limit field, c.1 = none) ∧
      (rest = [] ↔ ∀ c ∈ k.fetchedCandidates limit field, c.1.isSome) ∧
      k.byFetched limit field order = match order with
        | .asc => valued ++ rest
        | .desc => rest ++ valued := by
  let le : (Option String × KeyHit) × Nat → (Option String × KeyHit) × Nat → Prop :=
    fun a b => ((compareFetched order a.1.1 b.1.1).then (compare a.2 b.2)).isLE = true
  let part (p : (Option String × KeyHit) × Nat → Bool) : List KeyHit :=
    (((k.fetchedCandidates limit field).zipIdx.filter p).insertionSort le).map fun a => a.1.2
  have hsortKey : ∀ c ∈ k.fetchedCandidates limit field, c.2.sortKey = c.1.map .str := by
    intro c hc
    obtain ⟨hit, -, value, -, rfl⟩ := mem_fetchedCandidates_iff.mp hc
    rfl
  have hpart : ∀ p (hit : KeyHit), hit ∈ part p →
      ∃ c ∈ (k.fetchedCandidates limit field).zipIdx, p c = true ∧ hit.sortKey = c.1.1.map .str := by
    intro p hit hhit
    obtain ⟨c, hc, rfl⟩ := mem_map.mp hhit
    obtain ⟨hmem, hp⟩ := mem_filter.mp ((mem_insertionSort le).mp hc)
    exact ⟨c, hmem, hp, mem_zipIdx_iff.mpr hsortKey c hmem⟩
  have hnil : ∀ p : Option String × KeyHit → Bool, part (fun c => p c.1) = [] ↔
      ∀ c ∈ k.fetchedCandidates limit field, p c = false := by
    intro p
    rw [map_eq_nil_iff, ← length_eq_zero_iff, length_insertionSort, length_eq_zero_iff,
      filter_eq_nil_iff]
    simp only [Bool.not_eq_true]
    exact mem_zipIdx_iff (P := fun c => p c = false)
  refine ⟨part fun c => c.1.1.isSome, part fun c => !c.1.1.isSome, fun hit hhit => ?_, fun hit hhit => ?_, ?_, ?_, ?_⟩
  · obtain ⟨c, -, hp, heq⟩ := hpart _ hit hhit
    rw [heq, Option.isSome_map]
    exact hp
  · obtain ⟨c, -, hp, heq⟩ := hpart _ hit hhit
    rw [heq]
    simpa using hp
  · rw [hnil fun c => c.1.isSome]
    simp
  · rw [hnil fun c => !c.1.isSome]
    simp
  · cases order with
    | asc =>
      have hsplit := TopSorted.insertionSort_eq_append le (fun c => c.1.1.isSome)
        (fun a b ha hb => by
          obtain ⟨x, hx⟩ := Option.isSome_iff_exists.mp ha
          have hy : b.1.1 = none := by simpa using hb
          simp [le, compareFetched, hx, hy]) (k.fetchedCandidates limit field).zipIdx
      show map _ _ = _
      rw [hsplit, map_append]
    | desc =>
      have hsplit := TopSorted.insertionSort_eq_append le (fun c => !c.1.1.isSome)
        (fun a b ha hb => by
          obtain ⟨x, hx⟩ := Option.isSome_iff_exists.mp (by simpa using hb)
          have hy : a.1.1 = none := by simpa using ha
          simp [le, compareFetched, hx, hy]) (k.fetchedCandidates limit field).zipIdx
      simp only [Bool.not_not] at hsplit
      show map _ _ = _
      rw [hsplit, map_append]

theorem cutsValueless_byFetched_iff (field : String) (order : SortOrder) (hlimit : limit ≠ 0) :
    CutsValueless limit (k.byFetched limit field order) ↔ ¬(order = .desc ∧ k.Mixed limit field) := by
  obtain ⟨valued, rest, hvalued, hrest, hnoValued, hnoRest, heq⟩ := byFetched_eq k limit field order
  rw [heq, mixed_iff]
  cases order with
  | asc => exact iff_of_true (cutsValueless_append hvalued hrest limit) (by simp)
  | desc =>
    by_cases hany : ∃ c ∈ k.fetchedCandidates limit field, c.1.isSome
    · by_cases hbare : ∃ c ∈ k.fetchedCandidates limit field, c.1 = none
      · have hvalued' : valued ≠ [] := fun h => by
          obtain ⟨c, hc, hsome⟩ := hany
          rw [hnoValued.mp h c hc] at hsome
          cases hsome
        have hrest' : rest ≠ [] := fun h => by
          obtain ⟨c, hc, hnone⟩ := hbare
          have hsome := hnoRest.mp h c hc
          rw [hnone] at hsome
          cases hsome
        exact iff_of_false (not_cutsValueless_append hrest hvalued hrest' hvalued' hlimit)
          (not_not_intro ⟨rfl, hany, hbare⟩)
      · have hnil : rest = [] := hnoRest.mpr fun c hc => by
          by_contra hnone
          exact hbare ⟨c, hc, by simpa using hnone⟩
        refine iff_of_true ?_ fun h => hbare h.2.2
        rw [hnil, nil_append, ← append_nil valued]
        exact cutsValueless_append hvalued (by simp) limit
    · have hnil : valued = [] := hnoValued.mpr fun c hc => by
        by_contra hsome
        exact hany ⟨c, hc, Option.isSome_iff_ne_none.mpr hsome⟩
      refine iff_of_true ?_ fun h => hany h.2.1
      rw [hnil, append_nil, ← nil_append rest]
      exact cutsValueless_append (by simp) hrest limit

/-! ### The search -/

/-- The sort is by a text column that is not fast. -/
def SortsFetched (k : KeySearch) (spec : SortSpec) : Prop :=
  spec.field ≠ "_seq" ∧ ∃ column, k.column? (k.columnName spec) = some column ∧ column.kind = .str ∧ column.fast = false

/-- The hits that are put in order: those of all matches, or those of the candidates where the sort is after the
    fetch. -/
def Orders (k : KeySearch) (limit : Nat) (spec : SortSpec) (ordered : List KeyHit) : Prop :=
  (¬ k.SortsFetched spec → (ordered.map KeyHit.id).Perm (k.matched.map fun hit => hit.doc.id)) ∧
    (k.SortsFetched spec → ordered.Perm ((k.fetchedCandidates limit (k.documentName spec)).map Prod.snd))

/-- Whatever a sorted search answers, its hits with a value stand before those without; and where hits were ordered,
    they are the first of those, none of them without a value if one with a value is cut. -/
def KeepsValued (k : KeySearch) (limit : Nat) (spec : SortSpec) : Prop :=
  ∀ hits, k.searchKeys limit (some spec) = .ok hits → ValuedFirst hits ∧
    (k.exactId = none → ∀ ordered, k.sortedHits limit spec = .ok ordered →
      hits = ordered.take limit ∧ k.Orders limit spec ordered ∧ CutsValueless limit ordered)

theorem orders_sorted {le : SearchMatch → SearchMatch → Prop} [DecidableRel le] {key : SearchMatch → Option SortKey}
    (hcolumn : ¬ k.SortsFetched spec) :
    k.Orders limit spec ((k.matched.insertionSort le).map fun hit => ⟨.placeholder, hit.doc.id, key hit⟩) := by
  refine ⟨fun _ => ?_, fun hfetched => absurd hfetched hcolumn⟩
  rw [map_map]
  exact (perm_insertionSort le k.matched).map _

theorem orders_byFetched (hfetched : k.SortsFetched spec) (order : SortOrder) :
    k.Orders limit spec (k.byFetched limit (k.documentName spec) order) := by
  refine ⟨fun hcolumn => absurd hfetched hcolumn, fun _ => ((perm_insertionSort _ _).map _).trans ?_⟩
  rw [show (fun a : (Option String × KeyHit) × Nat => a.1.2) = Prod.snd ∘ Prod.fst from rfl, ← map_map, zipIdx_map_fst]

theorem sortedHits_cases {ordered : List KeyHit} (h : k.sortedHits limit spec = .ok ordered) :
    k.Orders limit spec ordered ∧ (CutsValueless limit ordered ∨
      (k.SortsFetched spec ∧ ordered = k.byFetched limit (k.documentName spec) spec.order)) := by
  unfold sortedHits at h
  split at h
  · cases h
  · next hseq =>
    split at h
    · cases h
    · next column hcolumn =>
      have hnot (hother : column.kind ≠ .str ∨ column.fast = true) : ¬ k.SortsFetched spec := by
        rintro ⟨-, found, hfound, hkind, hfast⟩
        obtain rfl := Option.some.inj (hcolumn.symm.trans hfound)
        rcases hother with hother | hother
        · exact hother hkind
        · cases hfast.symm.trans hother
      dsimp only at h
      split at h
      · cases h
      · cases hkind : column.kind <;> simp only [hkind] at h
        case u64 | i64 | f64 | date =>
          cases h
          exact ⟨orders_sorted (hnot (.inl (by simp [hkind]))), .inl (cutsValueless_byColumn _ _ _)⟩
        case ipAddr =>
          cases h
          exact ⟨orders_sorted (hnot (.inl (by simp [hkind]))), .inl (cutsValueless_byIp _ _ _)⟩
        case str =>
          split at h
          · next hfast =>
            cases h
            exact ⟨orders_sorted (hnot (.inr hfast)), .inl (cutsValueless_byColumn _ _ _)⟩
          · next hfast =>
            cases h
            have hfetched : k.SortsFetched spec := ⟨hseq, column, hcolumn, hkind, by simpa using hfast⟩
            exact ⟨orders_byFetched hfetched _, .inr ⟨hfetched, rfl⟩⟩
        all_goals cases h

theorem sortedHits_of_sortsFetched (limit : Nat) (h : k.SortsFetched spec) :
    k.sortedHits limit spec = .ok (k.byFetched limit (k.documentName spec) spec.order) := by
  obtain ⟨hseq, column, hcolumn, hkind, hfast⟩ := h
  simp [sortedHits, hseq, hcolumn, hkind, hfast]

/-- A sorted search lists the hits that have a value before those that have none, and drops the latter first, unless
    it sorts a text field after the fetch in descending order and some of its candidates have the field and some
    have not. -/
theorem keepsValued_iff (k : KeySearch) (limit : Nat) (spec : SortSpec) :
    k.KeepsValued limit spec ↔ ¬(limit ≠ 0 ∧ k.exactId = none ∧ k.SortsFetched spec ∧ spec.order = .desc ∧
      k.Mixed limit (k.documentName spec)) := by
  constructor
  · rintro hkeeps ⟨hlimit, hexact, hfetched, hdesc, hmixed⟩
    have hsorted := sortedHits_of_sortsFetched limit hfetched
    have hsearch : k.searchKeys limit (some spec) =
        .ok ((k.byFetched limit (k.documentName spec) spec.order).take limit) := by
      simp [searchKeys, hlimit, hexact, hsorted, Except.map]
    obtain ⟨-, -, hcuts⟩ := (hkeeps _ hsearch).2 hexact _ hsorted
    exact (cutsValueless_byFetched_iff _ _ hlimit).mp hcuts ⟨hdesc, hmixed⟩
  · intro hwhen hits hsearch
    by_cases hlimit : limit = 0
    · subst hlimit
      rw [searchKeys, if_pos rfl] at hsearch
      cases hsearch
      refine ⟨List.Pairwise.nil, fun _ ordered hordered => ⟨by simp, (sortedHits_cases hordered).1, ?_⟩⟩
      simp [CutsValueless, ValuedFirst]
    rw [searchKeys, if_neg hlimit] at hsearch
    cases hexact : k.exactId with
    | some id =>
      simp only [hexact, Except.ok.injEq] at hsearch
      refine ⟨?_, nofun⟩
      rw [← hsearch]
      split
      · exact pairwise_singleton _ _
      · exact List.Pairwise.nil
    | none =>
      simp only [hexact] at hsearch
      obtain ⟨ordered, hordered, rfl⟩ : ∃ ordered, k.sortedHits limit spec = .ok ordered ∧
        ordered.take limit = hits := by
        cases hs : k.sortedHits limit spec with
        | error e => simp [hs, Except.map] at hsearch
        | ok ordered => exact ⟨ordered, rfl, by simpa [hs, Except.map] using hsearch⟩
      obtain ⟨horders, hcases⟩ := sortedHits_cases hordered
      have hcuts : CutsValueless limit ordered := by
        rcases hcases with hcuts | ⟨hfetched, rfl⟩
        · exact hcuts
        · exact (cutsValueless_byFetched_iff _ _ hlimit).mpr fun ⟨hdesc, hmixed⟩ =>
            hwhen ⟨hlimit, hexact, hfetched, hdesc, hmixed⟩
      refine ⟨hcuts.1, fun _ found hfound => ?_⟩
      cases hordered.symm.trans hfound
      exact ⟨rfl, horders, hcuts⟩

def untitled : KeySearch where
  schema := .default
  fields := ⟨false, (∅ : Std.ExtTreeMap String Column).insert "title"
    ⟨.str, false, false, some ("default", .withFreqsAndPositions)⟩⟩
  idFast := true
  exactId := none
  matched := [⟨.placeholder, ⟨"a", none, [("title", .str "x")]⟩⟩, ⟨.placeholder, ⟨"b", none, []⟩⟩]
  document
    | "a" => some (.object [("title", .string "x")])
    | "b" => some (.object [])
    | _ => none

theorem untitled_displaces : untitled.searchKeys 1 (some ⟨"title", .desc⟩) = .ok [⟨.placeholder, "b", none⟩] ∧
    ¬untitled.KeepsValued 1 ⟨"title", .desc⟩ := by
  have hsorted : untitled.sortedHits 1 ⟨"title", .desc⟩ =
      .ok [⟨.placeholder, "b", none⟩, ⟨.placeholder, "a", some (.str "x")⟩] := by decide
  have hsearch : untitled.searchKeys 1 (some ⟨"title", .desc⟩) = .ok [⟨.placeholder, "b", none⟩] := by
    rw [searchKeys, if_neg Nat.one_ne_zero]
    show Except.map _ (untitled.sortedHits _ _) = _
    rw [hsorted]
    rfl
  refine ⟨hsearch, fun hkeeps => ?_⟩
  obtain ⟨-, -, -, hcut⟩ := (hkeeps _ hsearch).2 rfl _ hsorted
  exact nomatch hcut ⟨_, mem_singleton_self _, rfl⟩ _ mem_cons_self

end KeySearch

end CameoDb
