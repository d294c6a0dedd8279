import CameoDb.Theorems.Node.Search
import CameoDb.Lib.TopSorted
import Mathlib.Data.List.Dedup
import Mathlib.Data.List.Perm.Basic

/-! # Pages of a merged search

What a source left out has a page and its offset of the source's own hits before it. -/

namespace CameoDb
open List Function SearchWindow PeerReply

namespace SearchWindow

variable {α : Type}

theorem apply_eq_drop_take (w : SearchWindow) (l : List α) : w.apply l = (l.take w.fetchCount).drop w.offset := by
  rw [apply, fetchCount, drop_take, Nat.add_sub_cancel_left]

theorem apply_map {α β : Type} (w : SearchWindow) (f : α → β) (l : List α) : w.apply (l.map f) = (w.apply l).map f := by
  rw [apply, apply, ← map_drop, ← map_take]

theorem apply_widened (w : SearchWindow) (l : List α) : w.widened.apply l = l.take w.fetchCount := by
  rw [apply, widened, drop_zero]

theorem flatMap_pages (l : List α) (size count : Nat) :
    ((range count).flatMap fun i => (⟨i * size, size⟩ : SearchWindow).apply l) = l.take (count * size) := by
  induction count with
  | zero => simp
  | succ count ih => rw [range_succ, flatMap_append, ih, flatMap_singleton, Nat.succ_mul, take_add, apply]

end SearchWindow

/-! ### The order of ranked hits -/

section Ranked
variable {K D E : Type} {cmp : K → K → Ordering}

def KeysSorted (cmp : K → K → Ordering) (hits : List (Hit K D)) : Prop :=
  hits.Pairwise fun a b => (cmp a.key b.key).isLE

def Hit.map (f : D → E) (hit : Hit K D) : Hit K E := ⟨hit.key, f hit.body⟩

def mapBody (f : D → E) (ranked : (Nat × Nat) × Hit K D) : (Nat × Nat) × Hit K E := (ranked.1, ranked.2.map f)

def rankSources (sources : List (Nat × List (Hit K D))) : List ((Nat × Nat) × Hit K D) :=
  sources.flatMap fun s => rankBlock s.1 s.2

def rankedOrdering (cmp : K → K → Ordering) (a b : (Nat × Nat) × Hit K D) : Ordering :=
  ((cmp a.2.key b.2.key).then (compare a.1.1 b.1.1)).then (compare a.1.2 b.1.2)

theorem transCmp_comap {α β : Type} (cmp : β → β → Ordering) [Std.TransCmp cmp] (f : α → β) :
    Std.TransCmp fun a b => cmp (f a) (f b) where
  eq_swap := Std.OrientedCmp.eq_swap
  isLE_trans := Std.TransCmp.isLE_trans

instance [Std.TransCmp cmp] : Std.TransCmp (rankedOrdering cmp (D := D)) := by
  have hkey := transCmp_comap cmp fun a : (Nat × Nat) × Hit K D => a.2.key
  have hsource := transCmp_comap compare fun a : (Nat × Nat) × Hit K D => a.1.1
  have hplace := transCmp_comap compare fun a : (Nat × Nat) × Hit K D => a.1.2
  exact inferInstanceAs (Std.TransCmp (compareLex (compareLex _ _) _))

variable {hits : List (Hit K D)} {sources : List (Nat × List (Hit K D))} {a b : (Nat × Nat) × Hit K D}

theorem mem_rankBlock {source : Nat} {a : (Nat × Nat) × Hit K D} :
    a ∈ rankBlock source hits ↔ a.1.1 = source ∧ hits[a.1.2]? = some a.2 := by
  obtain ⟨⟨s, i⟩, hit⟩ := a
  simp only [rankBlock, mem_map, Prod.exists, mem_zipIdx_iff_getElem?, Prod.mk.injEq]
  grind

theorem rankBlock_take (source : Nat) (hits : List (Hit K D)) (n : Nat) :
    rankBlock source (hits.take n) = (rankBlock source hits).take n := by
  refine ext_getElem? fun i => ?_
  simp only [rankBlock, getElem?_map, getElem?_take, getElem?_zipIdx]
  split <;> rfl

theorem eq_of_rank_eq (hnodup : (sources.map Prod.fst).Nodup) (ha : a ∈ rankSources sources)
    (hb : b ∈ rankSources sources) (h : a.1 = b.1) : a = b := by
  obtain ⟨s, hs, ha⟩ := mem_flatMap.mp ha
  obtain ⟨t, ht, hb⟩ := mem_flatMap.mp hb
  obtain ⟨hsource, ha⟩ := mem_rankBlock.mp ha
  obtain ⟨hsource', hb⟩ := mem_rankBlock.mp hb
  obtain rfl : s = t := inj_on_of_nodup_map hnodup hs ht (by rw [← hsource, ← hsource', h])
  rw [← h, ha] at hb
  exact Prod.ext h (Option.some.inj hb)

theorem rank_eq_of_le_of_le [Std.TransCmp cmp] (hab : rankedLe cmp a b = true) (hba : rankedLe cmp b a = true) :
    a.1 = b.1 := by
  have heq : rankedOrdering cmp a b = .eq := Std.OrientedCmp.isLE_antisymm hab hba
  simp only [rankedOrdering, Ordering.then_eq_eq, Nat.compare_eq_eq] at heq
  exact Prod.ext heq.1.2 heq.2

instance [Std.TransCmp cmp] : IsTrans ((Nat × Nat) × Hit K D) fun a b => rankedLe cmp a b = true where
  trans a b c hab hbc := by
    have hle : (rankedOrdering cmp a c).isLE = true := Std.TransCmp.isLE_trans hab hbc
    exact hle

instance [Std.TransCmp cmp] : Std.Total fun a b : (Nat × Nat) × Hit K D => rankedLe cmp a b = true where
  total a b := by
    have hswap : rankedOrdering cmp b a = (rankedOrdering cmp a b).swap := Std.OrientedCmp.eq_swap
    show (rankedOrdering cmp a b).isLE = true ∨ (rankedOrdering cmp b a).isLE = true
    rw [hswap]
    cases rankedOrdering cmp a b <;> simp

theorem pairwise_rankBlock [Std.TransCmp cmp] (source : Nat) (h : KeysSorted cmp hits) :
    (rankBlock source hits).Pairwise fun a b => ¬rankedLe cmp b a = true := by
  refine pairwise_map.mpr (pairwise_iff_getElem.mpr fun i j hi hj hij hle => ?_)
  rw [length_zipIdx] at hi hj
  have hkeys : (cmp hits[i].key hits[j].key).isLE = true := pairwise_iff_getElem.mp h i j hi hj hij
  have hswap : cmp hits[j].key hits[i].key = (cmp hits[i].key hits[j].key).swap := Std.OrientedCmp.eq_swap
  have hplace : compare j i = .gt := Nat.compare_eq_gt.mpr hij
  simp only [rankedLe, getElem_zipIdx, Nat.zero_add, hswap, hplace] at hle
  cases hcmp : cmp hits[i].key hits[j].key <;> simp_all

theorem apply_orderRanked_take [Std.TransCmp cmp] (hnodup : (sources.map Prod.fst).Nodup)
    (hsorted : ∀ s ∈ sources, KeysSorted cmp s.2) (window : SearchWindow) :
    window.apply (orderRanked cmp (rankSources (sources.map fun s => (s.1, s.2.take window.fetchCount)))) =
      window.apply (orderRanked cmp (rankSources sources)) := by
  have hflat : ∀ l : List (Nat × List (Hit K D)), rankSources l = (l.map fun s => rankBlock s.1 s.2).flatten :=
    fun _ => rfl
  have htop : (((sources.map fun s => rankBlock s.1 s.2).map (take window.fetchCount)).flatten.insertionSort
      fun a b => rankedLe cmp a b = true).take window.fetchCount =
      ((sources.map fun s => rankBlock s.1 s.2).flatten.insertionSort fun a b => rankedLe cmp a b = true).take
        window.fetchCount := TopSorted.take_insertionSort_flatten ?_ ?_ _
  · rw [apply_eq_drop_take, apply_eq_drop_take, orderRanked, orderRanked, hflat, hflat, ← htop]
    simp only [map_map, comp_def, rankBlock_take]
  · intro b hb
    obtain ⟨s, hs, rfl⟩ := mem_map.mp hb
    exact pairwise_rankBlock s.1 (hsorted s hs)
  · intro a ha b hb hab hba
    exact eq_of_rank_eq hnodup ha hb (rank_eq_of_le_of_le hab hba)

theorem orderRanked_of_perm [Std.TransCmp cmp] {sources sources' : List (Nat × List (Hit K D))}
    (hnodup : (sources.map Prod.fst).Nodup) (hperm : sources.Perm sources') :
    orderRanked cmp (rankSources sources) = orderRanked cmp (rankSources sources') :=
  TopSorted.insertionSort_eq_of_perm (hperm.flatMap_right _) fun _ ha _ hb hab hba =>
    eq_of_rank_eq hnodup ha hb (rank_eq_of_le_of_le hab hba)

theorem map_snd_rankSources (sources : List (Nat × List (Hit K D))) :
    (rankSources sources).map Prod.snd = sources.flatMap Prod.snd := by
  simp [rankSources, rankBlock, map_flatMap, comp_def, zipIdx_map_fst]

theorem orderRanked_perm (sources : List (Nat × List (Hit K D))) :
    ((orderRanked cmp (rankSources sources)).map Prod.snd).Perm (sources.flatMap Prod.snd) := by
  rw [← map_snd_rankSources]
  exact (perm_insertionSort _ _).map _

theorem keysSorted_orderRanked [Std.TransCmp cmp] (ranked : List ((Nat × Nat) × Hit K D)) :
    KeysSorted cmp ((orderRanked cmp ranked).map Prod.snd) := by
  refine pairwise_map.mpr ((pairwise_insertionSort _ ranked).imp fun {a b} hle => ?_)
  have hle : (rankedOrdering cmp a b).isLE = true := hle
  unfold rankedOrdering at hle
  cases hcmp : cmp a.2.key b.2.key <;> simp_all

theorem orderRanked_map (f : D → E) (ranked : List ((Nat × Nat) × Hit K D)) :
    orderRanked cmp (ranked.map (mapBody f)) = (orderRanked cmp ranked).map (mapBody f) :=
  (map_insertionSort _ _ (mapBody f) ranked fun _ _ _ _ => Iff.rfl).symm

theorem rankBlock_map (f : D → E) (source : Nat) (hits : List (Hit K D)) :
    rankBlock source (hits.map (Hit.map f)) = (rankBlock source hits).map (mapBody f) := by
  simp [rankBlock, mapBody, zipIdx_map, comp_def]

end Ranked

/-! ### What the sources hold -/

/-- What a shard finds: every document once. -/
structure ShardCorpus (K D : Type) where
  id : ShardId
  hits : List (Hit K String)
  document : String → D
  totalHits : Nat
  notes : SearchNotes
  distinct : (hits.map Hit.body).Nodup

namespace ShardCorpus
variable {K D : Type}

def front (s : ShardCorpus K D) (n : Nat) : ShardKeys K := ⟨s.hits.take n, s.totalHits, false, s.notes⟩

def shard (s : ShardCorpus K D) : SearchShard K D where
  id := s.id
  keys n := .ok (s.front n)
  fetch ids := .ok (ids.map fun id => (id, s.document id))

def both (s : ShardCorpus K D) : List (Hit K (String × D)) := s.hits.map (Hit.map fun id => (id, s.document id))

def found (s : ShardCorpus K D) : List (Hit K D) := s.hits.map (Hit.map s.document)

theorem map_fst_both (s : ShardCorpus K D) : s.both.map (Hit.map Prod.fst) = s.hits := by
  simp [both, Hit.map, comp_def]

theorem map_snd_both (s : ShardCorpus K D) : s.both.map (Hit.map Prod.snd) = s.found := by
  simp [both, found, Hit.map, comp_def]

end ShardCorpus

structure NodeCorpus (K D : Type) where
  id : NodeId
  schema : Nat × UInt64
  shards : List (ShardCorpus K D)
  distinct : (shards.map ShardCorpus.id).Nodup

namespace NodeCorpus
variable {K D : Type} {cmp : K → K → Ordering} (n : NodeCorpus K D)

def node : SearchNode K D := ⟨n.id, true, n.schema, false, n.shards.map ShardCorpus.shard⟩

def sources : List (ShardId × List (Hit K D)) := n.shards.map fun s => (s.id, s.found)

def order (cmp : K → K → Ordering) : List (Hit K D) := (orderRanked cmp (rankSources n.sources)).map Prod.snd

/-- Every shard gives its hits in the order of their keys. -/
def Sorted (cmp : K → K → Ordering) : Prop := ∀ s ∈ n.shards, KeysSorted cmp s.hits

theorem nodup_sources : (n.sources.map Prod.fst).Nodup := by
  simpa [sources, comp_def] using n.distinct

theorem keysSorted_sources (h : n.Sorted cmp) : ∀ s ∈ n.sources, KeysSorted cmp s.2 := by
  intro source hsource
  obtain ⟨s, hs, rfl⟩ := mem_map.mp hsource
  exact pairwise_map.mpr (h s hs)

def page (cmp : K → K → Ordering) (window : SearchWindow) : List ((ShardId × Nat) × Hit K (String × D)) :=
  window.apply (orderRanked cmp (rankSources (n.shards.map fun s => (s.id, s.both.take window.fetchCount))))

theorem exists_shard_of_mem_page {window : SearchWindow} {hit : (ShardId × Nat) × Hit K (String × D)}
    (h : hit ∈ n.page cmp window) : ∃ s ∈ n.shards, s.id = hit.1.1 ∧ s.document hit.2.body.1 = hit.2.body.2 := by
  have hmem := (mem_insertionSort _).mp (mem_of_mem_drop (mem_of_mem_take h))
  obtain ⟨source, hsource, hhit⟩ := mem_flatMap.mp hmem
  obtain ⟨s, hs, rfl⟩ := mem_map.mp hsource
  obtain ⟨hid, hhit⟩ := mem_rankBlock.mp hhit
  obtain ⟨key, -, hkey⟩ := mem_map.mp (mem_of_mem_take (mem_of_getElem? hhit))
  refine ⟨s, hs, hid.symm, ?_⟩
  rw [← hkey]
  rfl

/-- The first phase asks for the keys of that page. -/
theorem keyPage_eq (window : SearchWindow) :
    window.apply (orderRanked cmp (n.shards.flatMap fun s => rankBlock s.id (s.hits.take window.fetchCount))) =
      (n.page cmp window).map (mapBody Prod.fst) := by
  rw [page, ← apply_map, ← orderRanked_map]
  simp only [rankSources, map_flatMap, flatMap_map, ← rankBlock_map, map_take, ShardCorpus.map_fst_both]

theorem page_eq [Std.TransCmp cmp] (h : n.Sorted cmp) (window : SearchWindow) :
    (n.page cmp window).map (fun hit => hit.2.map Prod.snd) = window.apply (n.order cmp) := by
  have hdocs : (n.page cmp window).map (mapBody Prod.snd) = window.apply (orderRanked cmp (rankSources n.sources)) := by
    rw [← apply_orderRanked_take n.nodup_sources (n.keysSorted_sources h), page, ← apply_map, ← orderRanked_map]
    simp only [rankSources, sources, map_map, map_flatMap, flatMap_map, comp_def, ← rankBlock_map,
      map_take, ShardCorpus.map_snd_both]
  rw [order, apply_map, ← hdocs, map_map]
  rfl

theorem nodup_page (window : SearchWindow) : ((n.page cmp window).map fun hit => (hit.1.1, hit.2.body.1)).Nodup := by
  have hsub : (n.page cmp window).Sublist
      (orderRanked cmp (rankSources (n.shards.map fun s => (s.id, s.both.take window.fetchCount)))) :=
    (take_sublist _ _).trans (drop_sublist _ _)
  refine Nodup.sublist (hsub.map _) (((perm_insertionSort _ _).map _).nodup_iff.mpr ?_)
  have hblock (s : ShardCorpus K D) :
      (rankBlock s.id (s.both.take window.fetchCount)).map (fun hit => (hit.1.1, hit.2.body.1)) =
        (s.hits.take window.fetchCount).map fun hit => (s.id, hit.body) := by
    rw [rankBlock, map_map, ← s.map_fst_both, ← map_take, map_map]
    have hhits := congrArg (map fun hit : Hit K (String × D) => (s.id, hit.body.1))
      (zipIdx_map_fst 0 (s.both.take window.fetchCount))
    rwa [map_map] at hhits
  rw [rankSources, map_flatMap, flatMap_map]
  simp only [hblock]
  refine nodup_flatMap.mpr ⟨fun s _ => ?_, (pairwise_map.mp n.distinct).imp fun {s t} hne => ?_⟩
  · have hhits : ((s.hits.take window.fetchCount).map Hit.body).Nodup := s.distinct.sublist ((take_sublist _ _).map _)
    have hpairs := hhits.map (f := Prod.mk s.id) (Prod.mk_right_injective s.id)
    rwa [map_map] at hpairs
  · intro key hs ht
    obtain ⟨_, -, rfl⟩ := mem_map.mp hs
    obtain ⟨_, -, heq⟩ := mem_map.mp ht
    exact hne (congrArg Prod.fst heq).symm

/-- The page's hits name each document once, so each still finds its own. -/
theorem assemble_eq_map {docs : ShardId × String → Option D} {page : List ((ShardId × Nat) × Hit K (String × D))}
    (hnodup : (page.map fun hit => (hit.1.1, hit.2.body.1)).Nodup)
    (hdocs : ∀ hit ∈ page, docs (hit.1.1, hit.2.body.1) = some hit.2.body.2) :
    assemble docs (page.map (mapBody Prod.fst)) = page.map fun hit => hit.2.map Prod.snd := by
  induction page generalizing docs with
  | nil => rfl
  | cons hit page ih =>
    rw [map_cons, nodup_cons] at hnodup
    obtain ⟨hhead, hpage⟩ := forall_mem_cons.mp hdocs
    have hrest : ∀ later ∈ page,
        update docs (hit.1.1, hit.2.body.1) none (later.1.1, later.2.body.1) = some later.2.body.2 := by
      intro later hlater
      rw [update_of_ne, hpage later hlater]
      intro heq
      exact hnodup.1 (heq ▸ mem_map_of_mem hlater)
    have hkey : docs ((mapBody Prod.fst hit).1.1, (mapBody Prod.fst hit).2.body) = some hit.2.body.2 := hhead
    rw [map_cons, assemble, hkey]
    exact congrArg (cons _) (ih hnodup.2 hrest)

theorem foldl_update {κ : Type} [DecidableEq κ] {key : κ} {doc : D} {l : List (κ × D)} {docs : κ → Option D}
    (hown : ∀ other, (key, other) ∈ l → other = doc) (h : (key, doc) ∈ l ∨ docs key = some doc) :
    l.foldl (fun (docs : κ → Option D) doc => update docs doc.1 (some doc.2)) docs key = some doc := by
  induction l generalizing docs with
  | nil => exact h.resolve_left not_mem_nil
  | cons head l ih =>
    refine ih (fun other hother => hown other (mem_cons_of_mem _ hother)) ?_
    dsimp only
    by_cases hkey : key = head.1
    · obtain rfl : head.2 = doc := hown _ (hkey ▸ mem_cons_self)
      right
      rw [hkey, update_self]
    · rw [update_of_ne hkey]
      refine h.imp_left fun hmem => (mem_cons.mp hmem).resolve_left ?_
      rintro rfl
      exact hkey rfl

variable {keys : List ((ShardId × Nat) × Hit K String)}

theorem mem_groupWindowByShard {group : ShardId × List String} :
    group ∈ groupWindowByShard keys ↔ (∃ hit ∈ keys, hit.1.1 = group.1) ∧
      group.2 = (keys.filter fun hit => hit.1.1 = group.1).map fun hit => hit.2.body := by
  simp only [groupWindowByShard, mem_map, mem_reverse, mem_dedup]
  constructor
  · rintro ⟨shard, hshard, rfl⟩
    exact ⟨hshard, rfl⟩
  · rintro ⟨hshard, hids⟩
    exact ⟨group.1, hshard, Prod.ext rfl hids.symm⟩

theorem mem_fetched {window : SearchWindow} {docs : ShardId × List (String × D)} :
    docs ∈ answered (n.node.fetchResults cmp window) ↔ ∃ s ∈ n.shards, ∃ ids,
      (s.id, ids) ∈ groupWindowByShard (n.node.keyPage cmp window) ∧
      docs = (s.id, ids.map fun id => (id, s.document id)) := by
  rw [mem_answered, mem_fetchResults]
  constructor
  · rintro ⟨shard, hshard, hid, ids, hids, hfetch⟩
    obtain ⟨s, hs, rfl⟩ := mem_map.mp hshard
    exact ⟨s, hs, ids, hids, Prod.ext hid.symm (Except.ok.inj hfetch).symm⟩
  · rintro ⟨s, hs, ids, hids, rfl⟩
    exact ⟨s.shard, mem_map_of_mem hs, rfl, ids, hids, rfl⟩

theorem assemble_page (window : SearchWindow)
    (hkeys : n.node.keyPage cmp window = (n.page cmp window).map (mapBody Prod.fst)) :
    assemble (documents (answered (n.node.fetchResults cmp window))) (n.node.keyPage cmp window) =
      (n.page cmp window).map fun hit => hit.2.map Prod.snd := by
  rw [hkeys]
  refine assemble_eq_map (n.nodup_page window) fun hit hhit => ?_
  obtain ⟨s, hs, hid, hdoc⟩ := n.exists_shard_of_mem_page hhit
  have hkey : mapBody Prod.fst hit ∈ n.node.keyPage cmp window := hkeys ▸ mem_map_of_mem hhit
  refine foldl_update (fun other hother => ?_) (.inl ?_)
  · -- The ids are distinct, so what came under the shard's id is its own.
    obtain ⟨answer, hanswer, hmem⟩ := mem_flatMap.mp hother
    obtain ⟨t, ht, ids, -, rfl⟩ := n.mem_fetched.mp hanswer
    obtain ⟨pair, hpair, heq⟩ := mem_map.mp hmem
    obtain ⟨id, -, rfl⟩ := mem_map.mp hpair
    obtain ⟨hsame, rfl⟩ := Prod.mk.inj heq
    obtain ⟨hshard, rfl⟩ := Prod.mk.inj hsame
    obtain rfl : t = s := inj_on_of_nodup_map n.distinct ht hs (hshard.trans hid.symm)
    exact hdoc
  · have hgroup : (s.id, ((n.node.keyPage cmp window).filter fun hit => hit.1.1 = s.id).map fun hit => hit.2.body) ∈
        groupWindowByShard (n.node.keyPage cmp window) := mem_groupWindowByShard.mpr ⟨⟨_, hkey, hid.symm⟩, rfl⟩
    refine mem_flatMap.mpr ⟨_, n.mem_fetched.mpr ⟨s, hs, _, hgroup, rfl⟩, ?_⟩
    have hids : hit.2.body.1 ∈
        ((n.node.keyPage cmp window).filter fun hit => hit.1.1 = s.id).map fun hit => hit.2.body :=
      mem_map.mpr ⟨_, mem_filter.mpr ⟨hkey, decide_eq_true hid.symm⟩, rfl⟩
    refine mem_map.mpr ⟨_, mem_map_of_mem (f := fun id => (id, s.document id)) hids, ?_⟩
    exact Prod.ext (Prod.ext hid rfl) hdoc

theorem gather_hits [Std.TransCmp cmp] (h : n.Sorted cmp) (window : SearchWindow) :
    ∃ answer, n.node.gather cmp window = .ok answer ∧ answer.hits = window.apply (n.order cmp) := by
  have hkeys : answered (n.node.keyResults window) = n.shards.map fun s => (s.id, s.front window.fetchCount) := by
    simp [SearchNode.keyResults, node, answered, ShardCorpus.shard, filterMap_map, comp_def]
  have hfailed : failures (n.node.keyResults window) = [] := by
    simp [SearchNode.keyResults, node, failures, ShardCorpus.shard, filterMap_map, comp_def]
  have hfetched : failures (n.node.fetchResults cmp window) = [] := by
    refine eq_nil_iff_forall_not_mem.mpr fun f hf => ?_
    obtain ⟨shard, hshard, -, ids, -, hfetch⟩ := mem_fetchResults.mp (mem_failures.mp hf)
    obtain ⟨s, -, rfl⟩ := mem_map.mp hshard
    cases hfetch
  have hpage : n.node.keyPage cmp window = (n.page cmp window).map (mapBody Prod.fst) := by
    rw [SearchNode.keyPage, hkeys, flatMap_map]
    exact n.keyPage_eq window
  have hemptied : (n.shards.map fun s => (s.id, s.front window.fetchCount)).any (fun k => k.2.emptied) = false := by
    simp [ShardCorpus.front]
  unfold SearchNode.gather
  dsimp only
  rw [if_neg (by simp [node]), if_neg (by simp [node]), hkeys, hfailed, if_neg (by simp [deadlineExceeded])]
  simp only [noShardAnswered, isEmpty_nil, Bool.or_true, if_true, hemptied, Bool.false_eq_true, if_false, hfetched,
    append_nil, deadlineExceeded, any_nil]
  refine ⟨_, rfl, ?_⟩
  rw [← n.page_eq h window]
  exact n.assemble_page window hpage

end NodeCorpus

/-- The nodes of a search: the one that took it, and its peers. -/
structure ClusterCorpus (K D : Type) where
  here : NodeCorpus K D
  peers : List (NodeCorpus K D)
  fanoutLimit : Nat
  distinct : (peers.map NodeCorpus.id).Nodup

namespace ClusterCorpus
variable {K D : Type} {cmp : K → K → Ordering} (c : ClusterCorpus K D) (streaming : Bool)

def cluster : SearchCluster K D :=
  ⟨c.here.node, none, true, c.peers.map fun n => ⟨n.node, true, .answers⟩, c.fanoutLimit⟩

def asked : List (NodeCorpus K D) := c.peers.take c.fanoutLimit

def ranked : List (NodeCorpus K D) :=
  c.here :: if streaming then c.asked.insertionSort fun a b => a.id ≤ b.id else c.asked

def sources (cmp : K → K → Ordering) : List (Nat × List (Hit K D)) :=
  ((c.ranked streaming).map fun n => n.order cmp).zipIdx.map Prod.swap

def order (cmp : K → K → Ordering) : List (Hit K D) :=
  (orderRanked cmp (rankSources (c.sources streaming cmp))).map Prod.snd

/-- Every shard of every node gives its hits in the order of their keys. -/
def Sorted (cmp : K → K → Ordering) : Prop := c.here.Sorted cmp ∧ ∀ n ∈ c.asked, n.Sorted cmp

def found : List (Hit K D) := (c.here :: c.asked).flatMap fun n => n.shards.flatMap ShardCorpus.found

def searchHits (cmp : K → K → Ordering) (window : SearchWindow) : Except SearchError (List (Hit K D)) :=
  (c.cluster.search cmp streaming window).map fun answer => answer.hits

theorem nodup_sources : ((c.sources streaming cmp).map Prod.fst).Nodup := by
  rw [sources, map_map]
  exact (zipIdx_map_snd 0 _).symm ▸ nodup_range'

theorem orderHitBlocks_front [Std.TransCmp cmp] (window : SearchWindow) :
    orderHitBlocks cmp ((c.ranked streaming).map fun n => (n.order cmp).take window.fetchCount) window =
      window.apply (c.order streaming cmp) := by
  have hsorted : ∀ s ∈ c.sources streaming cmp, KeysSorted cmp s.2 := by
    intro s hs
    obtain ⟨block, hblock, rfl⟩ := mem_map.mp hs
    obtain ⟨n, -, heq⟩ := mem_map.mp (fst_mem_of_mem_zipIdx hblock)
    have hblock : KeysSorted cmp (n.order cmp) := keysSorted_orderRanked _
    rwa [heq] at hblock
  have hranked : (((c.ranked streaming).map fun n => (n.order cmp).take window.fetchCount).zipIdx.flatMap
    fun b => rankBlock b.2 b.1) =
      rankSources ((c.sources streaming cmp).map fun s => (s.1, s.2.take window.fetchCount)) := by
    simp only [rankSources, sources, zipIdx_map, map_map, flatMap_map, comp_def]
    rfl
  rw [order, apply_map, orderHitBlocks, hranked, apply_orderRanked_take (c.nodup_sources streaming) hsorted]

/-- Blocks come in the order of the nodes' ids whether they are taken from the nodes before or after these are
    sorted. -/
theorem insertionSort_map_id {β : Type} (f : NodeCorpus K D → β) (nodes : List (NodeCorpus K D)) :
    ((nodes.map fun n => (n.id, f n)).insertionSort fun a b => a.1 ≤ b.1) =
      (nodes.insertionSort fun a b => a.id ≤ b.id).map fun n => (n.id, f n) :=
  (map_insertionSort _ _ (fun n => (n.id, f n)) nodes fun _ _ _ _ => Iff.rfl).symm

theorem remote_cluster (window : SearchWindow) :
    c.cluster.remote cmp window = c.asked.map fun n => (n.id, .replied (n.node.gather cmp window)) := by
  simp only [SearchCluster.remote, SearchCluster.asked, cluster, asked, if_true, ← map_take, map_map]
  rfl

theorem searchHits_eq [Std.TransCmp cmp] (h : c.Sorted cmp) (window : SearchWindow) :
    c.searchHits streaming cmp window = .ok (window.apply (c.order streaming cmp)) := by
  have hgather : ∀ n : NodeCorpus K D, n.Sorted cmp →
      ∃ answer, n.node.gather cmp window.widened = .ok answer ∧ answer.hits = (n.order cmp).take window.fetchCount := by
    intro n hn
    obtain ⟨answer, hanswer, hhits⟩ := n.gather_hits hn window.widened
    exact ⟨answer, hanswer, hhits.trans (window.apply_widened _)⟩
  obtain ⟨here, hhere, hhits⟩ := hgather c.here h.1
  have hlocal : c.cluster.localResult cmp window.widened = .ok here := hhere
  rw [← c.orderHitBlocks_front]
  cases streaming with
  | false =>
    have hanswers : ((c.asked.map fun n => replied (n.node.gather cmp window.widened)).filterMap answer?).map
        (fun a => a.hits) = c.asked.map fun n => (n.order cmp).take window.fetchCount := by
      rw [map_filterMap, filterMap_map, ← filterMap_eq_map]
      refine filterMap_congr fun n hn => ?_
      obtain ⟨answer, hanswer, hhits⟩ := hgather n (h.2 n hn)
      simp [hanswer, answer?, hhits]
    simp [searchHits, SearchCluster.search, SearchCluster.handleBroadcast, hlocal, remote_cluster, isAbsent, Except.map,
      answer?, ranked, hhits, ← hanswers, comp_def]
  | true =>
    have hanswers : ((c.asked.map fun n => (n.id, replied (n.node.gather cmp window.widened))).filterMap fun r =>
        r.2.answer?.map fun answer => (r.1, answer)).map (fun a => (a.1, a.2.hits)) =
        c.asked.map fun n => (n.id, (n.order cmp).take window.fetchCount) := by
      rw [map_filterMap, filterMap_map, ← filterMap_eq_map]
      refine filterMap_congr fun n hn => ?_
      obtain ⟨answer, hanswer, hhits⟩ := hgather n (h.2 n hn)
      simp [hanswer, answer?, hhits]
    simp only [searchHits, SearchCluster.search, if_true, SearchCluster.handleBroadcastStreaming,
      hlocal, remote_cluster, hanswers, insertionSort_map_id]
    simp [isAbsent, Except.map, answer?, ranked, hhits, comp_def]

/-! ### Sources that answer in another order -/

end ClusterCorpus

/-- The node answers with its shards in another order. -/
def NodeCorpus.Reordered {K D : Type} (n n' : NodeCorpus K D) : Prop := n.id = n'.id ∧ n.shards.Perm n'.shards

theorem NodeCorpus.Reordered.order_eq {K D : Type} {cmp : K → K → Ordering} [Std.TransCmp cmp] {n n' : NodeCorpus K D}
    (h : n.Reordered n') : n.order cmp = n'.order cmp :=
  congrArg (map Prod.snd) (orderRanked_of_perm n.nodup_sources (h.2.map _))

namespace ClusterCorpus
variable {K D : Type} {cmp : K → K → Ordering} (c : ClusterCorpus K D) (streaming : Bool)

/-- The same cluster, with the shards of its nodes answering in another order, and the nodes too where the merge
    streams. Where it does not, their answers are kept in the order they were asked in. -/
def Reordered (c' : ClusterCorpus K D) : Prop :=
  c.here.Reordered c'.here ∧ ∃ peers, List.Forall₂ NodeCorpus.Reordered c.asked peers ∧
    if streaming then peers.Perm c'.asked else peers = c'.asked

theorem map_eq_of_forall₂ {α β γ : Type} {R : α → β → Prop} {f : α → γ} {g : β → γ}
    (hR : ∀ a b, R a b → f a = g b) {l : List α} {l' : List β} (h : List.Forall₂ R l l') : l.map f = l'.map g := by
  induction h with
  | nil => rfl
  | cons hhead _ ih => rw [map_cons, map_cons, hR _ _ hhead, ih]

variable {c c' : ClusterCorpus K D} {streaming : Bool}

theorem Reordered.order_eq [Std.TransCmp cmp] (h : c.Reordered streaming c') :
    c.order streaming cmp = c'.order streaming cmp := by
  obtain ⟨hhere, peers, hpeers, hperm⟩ := h
  have hblocks : c.asked.map (fun n => (n.id, n.order cmp)) = peers.map fun n => (n.id, n.order cmp) :=
    map_eq_of_forall₂ (fun _ _ h => Prod.ext h.1 h.order_eq) hpeers
  have hranked : (c.ranked streaming).map (fun n => n.order cmp) = (c'.ranked streaming).map fun n => n.order cmp := by
    cases streaming with
    | false =>
      rw [if_neg Bool.false_ne_true] at hperm
      subst hperm
      have horders := congrArg (map Prod.snd) hblocks
      simpa [ranked, hhere.order_eq, comp_def] using horders
    | true =>
      rw [if_pos rfl] at hperm
      have hnodup : (c'.asked.map NodeCorpus.id).Nodup := c'.distinct.sublist ((take_sublist _ _).map _)
      have hanti : ∀ a ∈ c'.asked.map (fun n => (n.id, n.order cmp)), ∀ b ∈ c'.asked.map (fun n => (n.id, n.order cmp)),
          a.1 ≤ b.1 → b.1 ≤ a.1 → a = b := by
        intro a ha b hb hab hba
        obtain ⟨n, hn, rfl⟩ := mem_map.mp ha
        obtain ⟨m, hm, rfl⟩ := mem_map.mp hb
        rw [inj_on_of_nodup_map hnodup hn hm (Nat.le_antisymm hab hba)]
      have hsort := TopSorted.insertionSort_eq_of_perm (hperm.symm.map fun n => (n.id, n.order cmp)) hanti
      rw [← hblocks, insertionSort_map_id, insertionSort_map_id] at hsort
      have horders := congrArg (map Prod.snd) hsort.symm
      simpa [ranked, hhere.order_eq, comp_def] using horders
  rw [order, order, sources, sources, hranked]

theorem Reordered.sorted (h : c.Reordered streaming c') (hsorted : c.Sorted cmp) : c'.Sorted cmp := by
  obtain ⟨hhere, peers, hpeers, hperm⟩ := h
  have hnode : ∀ {n n' : NodeCorpus K D}, n.Reordered n' → n.Sorted cmp → n'.Sorted cmp :=
    fun hsame hn s hs => hn s (hsame.2.mem_iff.mpr hs)
  have hasked : ∀ l : List (NodeCorpus K D), List.Forall₂ NodeCorpus.Reordered l peers → (∀ n ∈ l, n.Sorted cmp) →
      ∀ n ∈ peers, n.Sorted cmp := by
    clear hperm hpeers
    intro l hl hall
    induction hl with
    | nil => nofun
    | cons hhead _ ih =>
      rw [forall_mem_cons] at hall ⊢
      exact ⟨hnode hhead hall.1, ih hall.2⟩
  refine ⟨hnode hhere hsorted.1, fun n hn => hasked _ hpeers hsorted.2 n ?_⟩
  split at hperm
  · exact hperm.mem_iff.mpr hn
  · exact hperm ▸ hn

/-- The merge has every hit of every shard once. -/
theorem order_perm (cmp : K → K → Ordering) : (c.order streaming cmp).Perm c.found := by
  have hblocks : (c.sources streaming cmp).flatMap Prod.snd = (c.ranked streaming).flatMap fun n => n.order cmp := by
    have hswap : ((c.ranked streaming).map fun n => n.order cmp).zipIdx.flatMap Prod.fst =
        ((c.ranked streaming).map fun n => n.order cmp).flatten := by
      rw [flatMap_def, zipIdx_map_fst]
    rw [sources, flatMap_map]
    exact hswap
  have hranked : (c.ranked streaming).Perm (c.here :: c.asked) := by
    unfold ranked
    split
    · exact (perm_insertionSort _ _).cons _
    · exact List.Perm.refl _
  have hnode : ∀ n : NodeCorpus K D, (n.order cmp).Perm (n.shards.flatMap ShardCorpus.found) := by
    intro n
    have hperm : (n.order cmp).Perm (n.sources.flatMap Prod.snd) := orderRanked_perm _
    rwa [NodeCorpus.sources, flatMap_map] at hperm
  refine (orderRanked_perm _).trans ?_
  rw [hblocks]
  exact hranked.flatMap fun n _ => hnode n

end ClusterCorpus

/-- Whichever merge is configured, a page is what stands at its place in the one order of all hits, and it is so
    whatever order the sources answer in. Pages of one size, one after the other, are the front of that order: it
    has every hit of every shard once, in the order of the keys. -/
theorem search_pages_one_order {K D : Type} {cmp : K → K → Ordering} [Std.TransCmp cmp] (c : ClusterCorpus K D)
    (streaming : Bool) (h : c.Sorted cmp) :
    (∀ window, c.searchHits streaming cmp window = .ok (window.apply (c.order streaming cmp))) ∧
      (∀ c', c.Reordered streaming c' → ∀ window, c'.searchHits streaming cmp window =
      c.searchHits streaming cmp window) ∧
      (∀ size, ∃ page : Nat → List (Hit K D), (∀ i, c.searchHits streaming cmp ⟨i * size, size⟩ = .ok (page i)) ∧
        ∀ count, (range count).flatMap page = (c.order streaming cmp).take (count * size)) ∧
      (c.order streaming cmp).Perm c.found ∧ KeysSorted cmp (c.order streaming cmp) := by
  refine ⟨c.searchHits_eq streaming h, fun c' hc' window => ?_, fun size => ?_, c.order_perm cmp,
    keysSorted_orderRanked _⟩
  · rw [c.searchHits_eq streaming h, c'.searchHits_eq streaming (hc'.sorted h), hc'.order_eq]
  · exact ⟨_, fun i => c.searchHits_eq streaming h _, flatMap_pages _ size⟩

/-- Two nodes, one of them with two shards, with ties between their hits. -/
def tiedCorpus : ClusterCorpus Nat String where
  here := ⟨1, (1, 0), [⟨7, [⟨1, "a"⟩, ⟨2, "b"⟩], id, 2, .empty, by decide⟩,
    ⟨5, [⟨1, "c"⟩], id, 1, .empty, by decide⟩], by decide⟩
  peers := [⟨2, (1, 0), [⟨6, [⟨1, "d"⟩, ⟨3, "e"⟩], id, 2, .empty, by decide⟩], by decide⟩]
  fanoutLimit := 16
  distinct := by decide

theorem search_pages_one_order_tiedCorpus :
    tiedCorpus.Sorted compare ∧ tiedCorpus.searchHits true compare ⟨1, 2⟩ = .ok [⟨1, "a"⟩, ⟨1, "d"⟩] := by
  have hsorted : tiedCorpus.Sorted compare := by
    simp only [ClusterCorpus.Sorted, NodeCorpus.Sorted, ClusterCorpus.asked, tiedCorpus, KeysSorted]
    decide
  refine ⟨hsorted, ((search_pages_one_order tiedCorpus true hsorted).1 ⟨1, 2⟩).trans ?_⟩
  decide

end CameoDb
