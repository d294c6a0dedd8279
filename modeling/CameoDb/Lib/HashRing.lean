import Std.Data.ExtTreeMap.Lemmas
import Mathlib.Data.List.Basic

/-! # Consistent hash rings

A ring gives every token to an owner; a hash belongs to the owner of the first token from it on, around the ring. -/

namespace CameoDb
open List Option Std

/-- Which owner each token has. -/
abbrev HashRing (T α : Type) [Ord T] := ExtTreeMap T α

namespace HashRing
variable {T α : Type} [Ord T] [TransOrd T]

def addNode (ring : HashRing T α) (owner : α) (tokens : List T) : HashRing T α :=
  tokens.foldl (fun ring token => ring.insert token owner) ring

def removeNode [DecidableEq α] (ring : HashRing T α) (owner : α) : HashRing T α :=
  ring.filter fun _ other => other ≠ owner

def build (entries : List (α × List T)) : HashRing T α :=
  entries.foldl (fun ring entry => ring.addNode entry.1 entry.2) ∅

def owner (ring : HashRing T α) (hash : T) : Option α :=
  if ring.isEmpty then none else ((ring.getEntryGE? hash).map Prod.snd).or (ring.minEntry?.map Prod.snd)

/-- No token belongs to two owners. -/
def Apart (entries : List (α × List T)) : Prop :=
  ∀ a ∈ entries, ∀ b ∈ entries, ∀ token, token ∈ a.2 → token ∈ b.2 → a.1 = b.1

variable [LawfulEqOrd T] [DecidableEq T] {ring : HashRing T α} {a : α} {token : T}
  {entries entries' : List (α × List T)}

theorem getElem?_addNode {tokens : List T} : (ring.addNode a tokens)[token]? = if token ∈ tokens then
    some a else ring[token]? := by
  induction tokens generalizing ring with
  | nil => rfl
  | cons first rest ih =>
    rw [addNode, foldl_cons, ← addNode, ih, ExtTreeMap.getElem?_insert]
    grind [LawfulEqOrd.compare_eq_iff_eq]

omit [DecidableEq T] in
theorem getElem?_removeNode [DecidableEq α] {b : α} :
    (ring.removeNode a)[token]? = some b ↔ ring[token]? = some b ∧ b ≠ a := by
  rw [removeNode, ExtTreeMap.getElem?_filter']
  simp

theorem getElem?_foldl_addNode (h : Apart entries) :
    (entries.foldl (fun ring entry => ring.addNode entry.1 entry.2) ring)[token]? = some a ↔
      (∃ tokens, (a, tokens) ∈ entries ∧ token ∈ tokens) ∨ (∀ entry ∈ entries, token ∉ entry.2) ∧
      ring[token]? = some a := by
  induction entries generalizing ring with
  | nil => simp
  | cons first rest ih =>
    obtain ⟨owner, tokens⟩ := first
    have hrest : Apart rest := fun x hx y hy => h x (mem_cons_of_mem _ hx) y (mem_cons_of_mem _ hy)
    rw [foldl_cons, ih hrest, getElem?_addNode]
    by_cases htoken : token ∈ tokens
    · have hsame : ∀ tokens', (a, tokens') ∈ rest → token ∈ tokens' → owner = a := fun tokens' hmem hin =>
        h (owner, tokens) mem_cons_self (a, tokens') (mem_cons_of_mem _ hmem) token htoken hin
      rw [if_pos htoken]
      constructor
      · rintro (⟨tokens', hmem, hin⟩ | ⟨-, heq⟩)
        · exact .inl ⟨tokens', mem_cons_of_mem _ hmem, hin⟩
        · exact .inl ⟨tokens, some.inj heq ▸ mem_cons_self, htoken⟩
      · rintro (⟨tokens', hmem, hin⟩ | ⟨hnone, -⟩)
        · by_cases hother : ∀ entry ∈ rest, token ∉ entry.2
          · refine .inr ⟨hother, ?_⟩
            rcases mem_cons.mp hmem with heq | hmem
            · rw [(Prod.mk.inj heq).1]
            · exact absurd hin (hother _ hmem)
          · push Not at hother
            obtain ⟨⟨b, tokens''⟩, hmem', hin'⟩ := hother
            have hab : a = b := h (a, tokens') hmem (b, tokens'') (mem_cons_of_mem _ hmem') token hin hin'
            exact .inl ⟨tokens'', hab ▸ hmem', hin'⟩
        · exact absurd htoken (hnone (owner, tokens) mem_cons_self)
    · rw [if_neg htoken]
      constructor
      · rintro (⟨tokens', hmem, hin⟩ | ⟨hnone, heq⟩)
        · exact .inl ⟨tokens', mem_cons_of_mem _ hmem, hin⟩
        · refine .inr ⟨fun entry hentry => ?_, heq⟩
          rcases mem_cons.mp hentry with rfl | hentry
          · exact htoken
          · exact hnone entry hentry
      · rintro (⟨tokens', hmem, hin⟩ | ⟨hnone, heq⟩)
        · rcases mem_cons.mp hmem with heq | hmem
          · exact absurd ((Prod.mk.inj heq).2 ▸ hin) htoken
          · exact .inl ⟨tokens', hmem, hin⟩
        · exact .inr ⟨fun entry hentry => hnone entry (mem_cons_of_mem _ hentry), heq⟩

theorem getElem?_build (h : Apart entries) :
    (build entries)[token]? = some a ↔ ∃ tokens, (a, tokens) ∈ entries ∧ token ∈ tokens := by
  rw [build, getElem?_foldl_addNode h]
  simp

/-- In whatever order the entries come, the ring is the same. -/
theorem build_congr (h : Apart entries) (hsame : ∀ entry, entry ∈ entries' ↔ entry ∈ entries) :
    build entries' = build entries := by
  have h' : Apart entries' := fun x hx y hy => h x ((hsame x).mp hx) y ((hsame y).mp hy)
  apply ExtTreeMap.ext_getElem?
  intro token
  apply Option.ext
  intro a
  rw [getElem?_build h', getElem?_build h]
  simp only [hsame]

/-! ### The owner of a hash -/

section First
variable {T : Type} [LE T] {tokens tokens' : Set T} {hash token t : T}

/-- The first token at or after `hash`, around the ring. -/
def IsFirstFrom (tokens : Set T) (hash token : T) : Prop :=
  token ∈ tokens ∧
    (hash ≤ token ∧ (∀ t ∈ tokens, hash ≤ t → token ≤ t) ∨ (∀ t ∈ tokens, ¬hash ≤ t) ∧ ∀ t ∈ tokens, token ≤ t)

theorem IsFirstFrom.unique [Std.IsLinearOrder T] (h : IsFirstFrom tokens hash token)
    (h' : IsFirstFrom tokens hash t) : token = t := by
  obtain ⟨hmem, ⟨hle, hmin⟩ | ⟨hpast, hmin⟩⟩ := h <;> obtain ⟨hmem', ⟨hle', hmin'⟩ | ⟨hpast', hmin'⟩⟩ := h'
  · exact Std.le_antisymm (hmin t hmem' hle') (hmin' token hmem hle)
  · exact absurd hle (hpast' token hmem)
  · exact absurd hle' (hpast t hmem')
  · exact Std.le_antisymm (hmin t hmem') (hmin' token hmem)

theorem IsFirstFrom.anti (h : IsFirstFrom tokens hash token) (hsub : ∀ t ∈ tokens', t ∈ tokens)
    (hmem : token ∈ tokens') : IsFirstFrom tokens' hash token := by
  obtain ⟨-, ⟨hle, hmin⟩ | ⟨hpast, hmin⟩⟩ := h
  · exact ⟨hmem, .inl ⟨hle, fun t ht => hmin t (hsub t ht)⟩⟩
  · exact ⟨hmem, .inr ⟨fun t ht => hpast t (hsub t ht), fun t ht => hmin t (hsub t ht)⟩⟩

end First

section Owner
variable {T α : Type} [Ord T] [TransOrd T]

theorem getEntryGE?_eq_find? (ring : HashRing T α) (hash : T) :
    ring.getEntryGE? hash = ring.toList.find? fun e => (compare e.1 hash).isGE := by
  obtain ⟨⟨m⟩⟩ := ring
  induction m using Quotient.inductionOn with
  | h t =>
    show DTreeMap.Internal.Impl.Const.getEntryGE? hash t.inner = (DTreeMap.Internal.Impl.Const.toList t.inner).find? _
    rw [DTreeMap.Internal.Impl.Const.getEntryGE?_eq_map, DTreeMap.Internal.Impl.getEntryGE?_eq_find? t.wf.ordered,
      DTreeMap.Internal.Impl.Const.toList_eq_toListModel_map, find?_map]
    rfl

theorem minEntry?_eq_head? (ring : HashRing T α) : ring.minEntry? = ring.toList.head? := by
  obtain ⟨⟨m⟩⟩ := ring
  induction m using Quotient.inductionOn with
  | h t =>
    show DTreeMap.Internal.Impl.Const.minEntry? t.inner = (DTreeMap.Internal.Impl.Const.toList t.inner).head?
    rw [DTreeMap.Internal.Impl.Const.minEntry?_eq_minEntry?, DTreeMap.Internal.Impl.minEntry?_eq_minEntry? t.wf.ordered,
      Internal.List.minEntry?_eq_head? t.wf.ordered, DTreeMap.Internal.Impl.Const.toList_eq_toListModel_map, head?_map]

/-- The entry a hash falls to: the first at or after it, or past the last token the first of all. -/
def entryFrom (ring : HashRing T α) (hash : T) : Option (T × α) :=
  (ring.toList.find? fun e => (compare e.1 hash).isGE).or ring.toList.head?

theorem owner_eq_entryFrom (ring : HashRing T α) (hash : T) : ring.owner hash = (ring.entryFrom hash).map Prod.snd := by
  unfold owner entryFrom
  rw [getEntryGE?_eq_find?, minEntry?_eq_head?]
  cases hl : ring.toList with
  | nil => simp
  | cons e rest =>
    have hfull : ring.isEmpty = false := by
      rw [← ExtTreeMap.isEmpty_toList, hl]
      rfl
    rw [hfull]
    simp

theorem owner_isSome {ring : HashRing T α} (h : ring.isEmpty = false) (hash : T) : (ring.owner hash).isSome := by
  rw [owner_eq_entryFrom, isSome_map]
  cases hl : ring.toList with
  | nil =>
    rw [← ExtTreeMap.isEmpty_toList, hl] at h
    cases h
  | cons e rest => simp [entryFrom, hl]

theorem isEmpty_eq_false_of_mem {ring : HashRing T α} {token : T} (h : token ∈ ring) : ring.isEmpty = false := by
  rw [Bool.eq_false_iff]
  intro hempty
  rw [ExtTreeMap.isEmpty_iff.mp hempty] at h
  exact ExtTreeMap.not_mem_empty h

variable [LE T] [LawfulOrderOrd T] {ring ring' : HashRing T α} {hash token t : T} {a : α}

theorem le_of_toList_eq {e e' : T × α} {before after : List (T × α)} (h : ring.toList = before ++ e :: after)
    (he' : e' ∈ after) : e.1 ≤ e'.1 := by
  have hsorted := ring.ordered_keys_toList
  rw [h] at hsorted
  have hlt := rel_of_pairwise_cons (pairwise_append.mp hsorted).2.1 he'
  exact isLE_compare.mp (by simp [hlt])

variable [Std.IsLinearOrder T] [LawfulEqOrd T]

theorem entryFrom_spec {e : T × α} (h : ring.entryFrom hash = some e) :
    IsFirstFrom {t | t ∈ ring} hash e.1 ∧ ring[e.1]? = some e.2 := by
  have hentry : ∀ {e : T × α}, e ∈ ring.toList → ring[e.1]? = some e.2 := fun he =>
    ExtTreeMap.mem_toList_iff_getElem?_eq_some.mp he
  have hmem : ∀ {e : T × α}, e ∈ ring.toList → e.1 ∈ ring := fun he =>
    ExtTreeMap.mem_iff_isSome_getElem?.mpr (by rw [hentry he]; rfl)
  have htoken : ∀ t ∈ ring, ∃ b, (t, b) ∈ ring.toList := fun t ht => by
    obtain ⟨b, hb⟩ := isSome_iff_exists.mp (ExtTreeMap.mem_iff_isSome_getElem?.mp ht)
    exact ⟨b, ExtTreeMap.mem_toList_iff_getElem?_eq_some.mpr hb⟩
  unfold entryFrom at h
  cases hfind : ring.toList.find? fun e => (compare e.1 hash).isGE with
  | some found =>
    rw [hfind] at h
    obtain rfl : found = e := some.inj h
    obtain ⟨hge, before, after, hlist, hbefore⟩ := find?_eq_some_iff_append.mp hfind
    have hin : found ∈ ring.toList := mem_of_find?_eq_some hfind
    refine ⟨⟨hmem hin, .inl ⟨isGE_compare.mp hge, fun t ht hle => ?_⟩⟩, hentry hin⟩
    obtain ⟨b, hb⟩ := htoken t ht
    rw [hlist] at hb
    rcases mem_append.mp hb with hb | hb
    · have hless := hbefore _ hb
      rw [isGE_compare.mpr hle] at hless
      cases hless
    · rcases mem_cons.mp hb with rfl | hb
      · exact Std.le_refl _
      · exact le_of_toList_eq hlist hb
  | none =>
    rw [hfind, none_or] at h
    obtain ⟨rest, hlist⟩ := head?_eq_some_iff.mp h
    have hin : e ∈ ring.toList := by simp [hlist]
    refine ⟨⟨hmem hin, .inr ⟨fun t ht hle => ?_, fun t ht => ?_⟩⟩, hentry hin⟩ <;> obtain ⟨b, hb⟩ := htoken t ht
    · exact find?_eq_none.mp hfind _ hb (isGE_compare.mpr hle)
    · rw [hlist] at hb
      rcases mem_cons.mp hb with rfl | hb
      · exact Std.le_refl _
      · exact le_of_toList_eq (hlist.trans (nil_append _).symm) hb

theorem owner_eq_some_iff :
    ring.owner hash = some a ↔ ∃ token, IsFirstFrom {t | t ∈ ring} hash token ∧ ring[token]? = some a := by
  rw [owner_eq_entryFrom]
  constructor
  · intro h
    obtain ⟨e, he, rfl⟩ := map_eq_some_iff.mp h
    exact ⟨e.1, entryFrom_spec he⟩
  · rintro ⟨token, hfirst, hget⟩
    cases hentry : ring.entryFrom hash with
    | none =>
      have hnil : ring.toList = [] := head?_eq_none_iff.mp (or_eq_none_iff.mp hentry).2
      have hin := ExtTreeMap.mem_toList_iff_getElem?_eq_some.mpr hget
      rw [hnil] at hin
      cases hin
    | some e =>
      obtain ⟨hfirst', hget'⟩ := entryFrom_spec hentry
      rw [hfirst'.unique hfirst, hget] at hget'
      exact congrArg some (some.inj hget').symm

theorem owner_of_mem_of_forall_mem (hsub : ∀ t ∈ ring', t ∈ ring) (hfirst : IsFirstFrom {t | t ∈ ring} hash token)
    (hget : ring'[token]? = some a) : ring'.owner hash = some a := by
  have hin : token ∈ ring' := ExtTreeMap.mem_iff_isSome_getElem?.mpr (by rw [hget]; rfl)
  exact owner_eq_some_iff.mpr ⟨token, hfirst.anti hsub hin, hget⟩

theorem owner_addNode [DecidableEq T] (list : List T) :
    (ring.addNode a list).owner hash = ring.owner hash ∨ (ring.addNode a list).owner hash = some a := by
  have hsub : ∀ t ∈ ring, t ∈ ring.addNode a list := fun t ht => by
    rw [ExtTreeMap.mem_iff_isSome_getElem?] at ht ⊢
    rw [getElem?_addNode]
    split
    · rfl
    · exact ht
  cases howner : (ring.addNode a list).owner hash with
  | none =>
    left
    cases hold : ring.owner hash with
    | none => rfl
    | some b =>
      obtain ⟨token, ⟨hin, -⟩, -⟩ := owner_eq_some_iff.mp hold
      have hsome := owner_isSome (isEmpty_eq_false_of_mem (hsub token hin)) hash
      rw [howner] at hsome
      cases hsome
  | some b =>
    obtain ⟨token, hfirst, hget⟩ := owner_eq_some_iff.mp howner
    rw [getElem?_addNode] at hget
    split at hget
    · exact .inr hget.symm
    · exact .inl (owner_of_mem_of_forall_mem hsub hfirst hget).symm

theorem owner_removeNode [DecidableEq α] (h : ring.owner hash ≠ some a) :
    (ring.removeNode a).owner hash = ring.owner hash := by
  have hsub : ∀ t ∈ ring.removeNode a, t ∈ ring := fun t ht => by
    rw [ExtTreeMap.mem_iff_isSome_getElem?] at ht ⊢
    obtain ⟨b, hb⟩ := isSome_iff_exists.mp ht
    rw [(getElem?_removeNode.mp hb).1]
    rfl
  cases howner : ring.owner hash with
  | none =>
    cases hnew : (ring.removeNode a).owner hash with
    | none => rfl
    | some b =>
      obtain ⟨token, ⟨hin, -⟩, -⟩ := owner_eq_some_iff.mp hnew
      have hsome := owner_isSome (isEmpty_eq_false_of_mem (hsub token hin)) hash
      rw [howner] at hsome
      cases hsome
  | some b =>
    obtain ⟨token, hfirst, hget⟩ := owner_eq_some_iff.mp howner
    have hne : b ≠ a := fun hba => h (hba ▸ howner)
    exact owner_of_mem_of_forall_mem hsub hfirst (getElem?_removeNode.mpr ⟨hget, hne⟩)

end Owner

end HashRing

end CameoDb
