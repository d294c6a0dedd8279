import CameoDb.Storage.Projection

/-! # Capping the arrays of a hit: the account

The account names an array by its path as text. Two arrays can have one path, and a document can come with an
account of its own; what is written first stays. -/

namespace CameoDb
open List

theorem JsonValue.induction {motive : JsonValue → Prop}
    (array : ∀ items, (∀ item ∈ items, motive item) → motive (array items))
    (object : ∀ members, (∀ member ∈ members, motive member.2) → motive (object members))
    (scalar : ∀ value, (∀ items, value ≠ .array items) → (∀ members, value ≠ .object members) → motive value)
    (value : JsonValue) : motive value := by
  refine @JsonValue.rec motive (fun items => ∀ item ∈ items, motive item)
    (fun members => ∀ member ∈ members, motive member.2)
    (fun member => motive member.2) ?_ ?_ ?_ ?_ array object ?_ ?_ ?_ ?_ ?_ value
  · exact scalar _ nofun nofun
  · exact fun _ => scalar _ nofun nofun
  · exact fun _ => scalar _ nofun nofun
  · exact fun _ => scalar _ nofun nofun
  · exact nofun
  · exact fun item rest hitem hrest => forall_mem_cons.mpr ⟨hitem, hrest⟩
  · exact nofun
  · exact fun member rest hmember hrest => forall_mem_cons.mpr ⟨hmember, hrest⟩
  · exact fun key value hvalue => hvalue

/-! ### The arrays of a value -/

/-- The arrays anywhere in a value. -/
inductive ArrayIn : JsonValue → List JsonValue → Prop
  | here (items : List JsonValue) : ArrayIn (.array items) items
  | item {items found : List JsonValue} {item : JsonValue} :
      item ∈ items → ArrayIn item found → ArrayIn (.array items) found
  | member {members : List (String × JsonValue)} {found : List JsonValue} {member : String × JsonValue} :
      member ∈ members → ArrayIn member.2 found → ArrayIn (.object members) found

/-- The arrays the cut comes to, with their paths and lengths. -/
inductive ArrayAt (max : Nat) : String → JsonValue → String → Nat → Prop
  | here (path : String) (items : List JsonValue) : ArrayAt max path (.array items) path items.length
  | item {path target : String} {items : List JsonValue} {item : JsonValue} {i n : Nat} :
      i < max → items[i]? = some item →
      ArrayAt max (elementPath path i) item target n → ArrayAt max path (.array items) target n
  | member {path target : String} {members : List (String × JsonValue)} {member : String × JsonValue} {n : Nat} :
      member ∈ members → ArrayAt max (memberPath path member.1) member.2 target n → ArrayAt max path
      (.object members) target n

section Cap
variable {max position : Nat} {path : String} {items : List JsonValue} {members : List (String × JsonValue)}
  {value item : JsonValue}
  {entry : String × Nat}

theorem capValue_scalar (harray : ∀ items, value ≠ .array items) (hobject : ∀ members, value ≠ .object members) :
    capValue max path value = (value, []) := by
  cases value with
  | array items => exact absurd rfl (harray items)
  | object members => exact absurd rfl (hobject members)
  | null | bool | number | string => rfl

theorem capItems_eq : capItems max path position items =
    let kept := (items.take (max - position)).mapIdx fun i => capValue max (elementPath path (position + i))
    (kept.map Prod.fst, kept.flatMap Prod.snd) := by
  induction items generalizing position with
  | nil => rw [take_nil]; rfl
  | cons item rest ih =>
    rw [capItems]
    split
    · have hroom : max - position = max - (position + 1) + 1 := by omega
      simp only [ih, hroom, take_succ_cons, mapIdx_cons, map_cons, flatMap_cons, Nat.add_zero,
        Nat.add_assoc, Nat.add_comm 1]
    · have hfull : max - position = 0 := by omega
      rw [hfull, take_zero]
      rfl

theorem capMembers_eq : capMembers max path members =
    (members.map fun member => (member.1, (capValue max (memberPath path member.1) member.2).1),
      members.flatMap fun member => (capValue max (memberPath path member.1) member.2).2) := by
  induction members with
  | nil => rfl
  | cons member rest ih => rw [capMembers, ih]; rfl

theorem capValue_bounded (value : JsonValue) : ∀ path, ∀ found, ArrayIn (capValue max path value).1 found →
    found.length ≤ max := by
  induction value using JsonValue.induction with
  | array items ih =>
    intro path found h
    rw [capValue, capItems_eq] at h
    cases h with
    | here =>
      rw [length_map, length_mapIdx]
      exact length_take_le ..
    | item hmem hin =>
      obtain ⟨_, hkept, rfl⟩ := mem_map.mp hmem
      obtain ⟨i, hi, rfl⟩ := mem_mapIdx.mp hkept
      exact ih _ (mem_of_mem_take (getElem_mem hi)) _ found hin
  | object members ih =>
    intro path found h
    rw [capValue, capMembers_eq] at h
    cases h with
    | member hmem hin =>
      obtain ⟨source, hsource, rfl⟩ := mem_map.mp hmem
      exact ih source hsource _ found hin
  | scalar value harray hobject =>
    intro path found h
    rw [capValue_scalar harray hobject] at h
    cases h with
    | here | item => exact absurd rfl (harray _)
    | member => exact absurd rfl (hobject _)

theorem capValue_eq_self (value : JsonValue) :
    (∀ found, ArrayIn value found → found.length ≤ max) → ∀ path, capValue max path value = (value, []) := by
  induction value using JsonValue.induction with
  | array items ih =>
    intro h path
    have hlength := h items (.here items)
    have hitems : items.mapIdx (fun i => capValue max (elementPath path (0 + i))) = items.map (·, []) := by
      refine ext_getElem? fun i => ?_
      rw [getElem?_mapIdx, getElem?_map]
      refine Option.map_congr fun item hitem => ?_
      exact ih item (mem_of_getElem? hitem) (fun found hin => h found (.item (mem_of_getElem? hitem) hin)) _
    rw [capValue, capItems_eq, take_of_length_le (by omega), hitems, if_neg (by omega)]
    simp [Function.comp_def]
  | object members ih =>
    intro h path
    have hmember : ∀ member ∈ members, capValue max (memberPath path member.1) member.2 = (member.2, []) :=
      fun member hmember =>
      ih member hmember (fun found hin => h found (.member hmember hin)) _
    rw [capValue, capMembers_eq, map_congr_left fun member h => congrArg (member.1, ·.1) (hmember member h),
      flatMap_eq_nil_iff.mpr fun member h => congrArg Prod.snd (hmember member h)]
    simp
  | scalar value harray hobject => exact fun _ _ => capValue_scalar harray hobject

theorem mem_capItems_cut : entry ∈ (capItems max path 0 items).2 ↔
    ∃ i item, i < max ∧ items[i]? = some item ∧ entry ∈ (capValue max (elementPath path i) item).2 := by
  rw [capItems_eq, mem_flatMap]
  constructor
  · rintro ⟨_, hkept, hin⟩
    obtain ⟨i, hi, rfl⟩ := mem_mapIdx.mp hkept
    rw [getElem_take, Nat.zero_add] at hin
    rw [length_take] at hi
    exact ⟨i, _, by omega, getElem?_eq_getElem (by omega), hin⟩
  · rintro ⟨i, item, hlt, hget, hin⟩
    obtain ⟨hi, rfl⟩ := List.getElem?_eq_some_iff.mp hget
    refine ⟨_, mem_mapIdx.mpr ⟨i, by rw [length_take]; omega, rfl⟩, ?_⟩
    rwa [getElem_take, Nat.zero_add]

theorem mem_capValue_cut (value : JsonValue) : ∀ path target n,
    (target, n) ∈ (capValue max path value).2 ↔ ArrayAt max path value target n ∧ max < n := by
  induction value using JsonValue.induction with
  | array items ih =>
    intro path target n
    rw [capValue, mem_append, mem_capItems_cut]
    constructor
    · rintro (hhere | ⟨i, item, hlt, hget, hin⟩)
      · split at hhere
        · next hlong =>
          cases mem_singleton.mp hhere
          exact ⟨.here path items, hlong⟩
        · cases hhere
      · obtain ⟨hat, hlong⟩ := (ih item (mem_of_getElem? hget) _ target n).mp hin
        exact ⟨.item hlt hget hat, hlong⟩
    · rintro ⟨hat, hlong⟩
      cases hat with
      | here => exact .inl (by rw [if_pos hlong]; exact mem_singleton.mpr rfl)
      | item hlt hget hat =>
        exact .inr ⟨_, _, hlt, hget, (ih _ (mem_of_getElem? hget) _ target n).mpr ⟨hat, hlong⟩⟩
  | object members ih =>
    intro path target n
    rw [capValue, capMembers_eq, mem_flatMap]
    constructor
    · rintro ⟨member, hmember, hin⟩
      obtain ⟨hat, hlong⟩ := (ih member hmember _ target n).mp hin
      exact ⟨.member hmember hat, hlong⟩
    · rintro ⟨hat, hlong⟩
      cases hat with
      | member hmember hat => exact ⟨_, hmember, (ih _ hmember _ target n).mpr ⟨hat, hlong⟩⟩
  | scalar value harray hobject =>
    intro path target n
    rw [capValue_scalar harray hobject]
    refine iff_of_false not_mem_nil ?_
    rintro ⟨hat, -⟩
    cases hat with
    | here | item => exact absurd rfl (harray _)
    | member => exact absurd rfl (hobject _)

end Cap

/-! ### The account -/

section Account
variable {members account entries : List (String × JsonValue)} {key name path : String} {value first : JsonValue}

theorem lookup_foldl_orInsert : (entries.foldl orInsert account).lookup name = (account.lookup name).or
    (entries.lookup name) := by
  induction entries generalizing account with
  | nil => rw [foldl_nil, lookup_nil, Option.or_none]
  | cons entry rest ih =>
    obtain ⟨k, v⟩ := entry
    rw [foldl_cons, ih, orInsert]
    split
    · next hsome =>
      obtain ⟨found, hfound⟩ := Option.isSome_iff_exists.mp hsome
      by_cases heq : name = k
      · simp [heq, hfound]
      · rw [lookup_cons, beq_false_of_ne heq]
    · rw [lookup_append, Option.or_assoc, ← lookup_append, singleton_append]

theorem lookup_replaceMember (h : (members.lookup key).isSome) :
    (replaceMember members key value).lookup key = some value := by
  induction members with
  | nil => cases h
  | cons member rest ih =>
    obtain ⟨k, v⟩ := member
    rw [replaceMember, map_cons]
    split
    · next heq => rw [lookup_cons_self]
    · next hne =>
      have hbeq : (key == k) = false := by simpa using Ne.symm hne
      rw [lookup_cons, hbeq] at h ⊢
      exact ih h

variable {member : String × JsonValue}

theorem mem_replaceMember (hne : member.1 ≠ key) : member ∈ replaceMember members key value ↔ member ∈ members := by
  unfold replaceMember
  rw [mem_map]
  constructor
  · rintro ⟨source, hsource, heq⟩
    split at heq
    · cases heq
      exact absurd rfl hne
    · exact heq ▸ hsource
  · intro hmem
    exact ⟨member, hmem, if_neg hne⟩

/-- Beside the account nothing is changed. -/
theorem mem_record (hne : member.1 ≠ key) : member ∈ record members key entries ↔ member ∈ members := by
  unfold record
  split
  · rfl
  · split
    · exact mem_replaceMember hne
    · rfl
    · rw [mem_append, mem_singleton]
      constructor
      · rintro (hmem | rfl)
        · exact hmem
        · exact absurd rfl hne
      · exact .inl

def accountOf (members : List (String × JsonValue)) (key path : String) : Option JsonValue :=
  match members.lookup key with
  | some (.object account) => account.lookup path
  | _ => none

/-- An entry the document comes with stays. -/
theorem accountOf_record (hfirst : entries.lookup path = some first) :
    accountOf (record members key entries) key path = some value ↔
    (∀ found, members.lookup key = some found → ∃ account, found = .object account) ∧
      (accountOf members key path).getD first = value := by
  have hempty : entries.isEmpty = false := by
    cases entries with
    | nil => cases hfirst
    | cons => rfl
  unfold record accountOf
  rw [hempty, if_neg Bool.false_ne_true]
  cases hlookup : members.lookup key with
  | none => simp [lookup_append, hlookup, lookup_foldl_orInsert, hfirst]
  | some found =>
    cases found with
    | object account =>
      simp only [lookup_replaceMember (by rw [hlookup]; rfl : (members.lookup key).isSome),
        lookup_foldl_orInsert, hfirst]
      cases account.lookup path <;> simp
    | null | bool | number | string | array => simp [hlookup]

end Account

/-! ### The selection -/

section Lead
variable {α : Type} {items : List α} {max n : Nat} {positions taken : List Nat}

/-- The positions in range, each once, after those taken before. -/
def leadingPositions (n : Nat) (taken positions : List Nat) : List Nat :=
  positions.foldl (fun taken p => if p < n ∧ p ∉ taken then taken ++ [p] else taken) taken

def leadOrder (n : Nat) (taken positions : List Nat) : List Nat :=
  leadingPositions n taken positions ++ (range n).filter (· ∉ leadingPositions n taken positions)

theorem leadingPositions_extends (n : Nat) (taken positions : List Nat) :
    taken <+: leadingPositions n taken positions := by
  induction positions generalizing taken with
  | nil => exact prefix_rfl
  | cons p rest ih =>
    rw [leadingPositions, foldl_cons]
    split
    · exact (prefix_append taken [p]).trans (ih _)
    · exact ih taken

/-- Positions in range, each once. -/
structure Distinct (n : Nat) (taken : List Nat) : Prop where
  nodup : taken.Nodup
  lt : ∀ p ∈ taken, p < n

theorem Distinct.leadingPositions (h : Distinct n taken) (positions : List Nat) :
    Distinct n (leadingPositions n taken positions) := by
  induction positions generalizing taken with
  | nil => exact h
  | cons p rest ih =>
    rw [CameoDb.leadingPositions, foldl_cons]
    split
    · next hnew =>
      refine ih ⟨?_, ?_⟩
      · exact nodup_append.mpr ⟨h.nodup, pairwise_singleton _ p, fun q hq r hr => by
          rw [mem_singleton.mp hr]
          exact fun heq => hnew.2 (heq ▸ hq)⟩
      · intro q hq
        rcases mem_append.mp hq with hq | hq
        · exact h.lt q hq
        · rw [mem_singleton.mp hq]
          exact hnew.1
    · exact ih h

theorem leadOrder_perm (n : Nat) (positions : List Nat) : (leadOrder n [] positions).Perm (range n) := by
  have hdistinct := @Distinct.leadingPositions n [] ⟨nodup_nil, nofun⟩ positions
  refine (perm_ext_iff_of_nodup ?_ nodup_range).mpr fun p => ?_
  · refine nodup_append.mpr ⟨hdistinct.nodup, nodup_range.filter _, fun q hq r hr heq => ?_⟩
    have hnot := (mem_filter.mp hr).2
    rw [← heq] at hnot
    simp [hq] at hnot
  · rw [leadOrder, mem_append, mem_filter, mem_range, decide_eq_true_eq]
    constructor
    · rintro (hlead | hrest)
      · exact hdistinct.lt p hlead
      · exact hrest.1
    · intro hlt
      by_cases hlead : p ∈ CameoDb.leadingPositions n [] positions
      · exact .inl hlead
      · exact .inr ⟨hlt, hlead⟩

def elementsAt (items : List α) (positions : List Nat) : List α := positions.filterMap (items[·]?)

theorem map_some_elementsAt (h : ∀ p ∈ positions, p < items.length) :
    (elementsAt items positions).map some = positions.map (items[·]?) := by
  induction positions with
  | nil => rfl
  | cons p rest ih =>
    obtain ⟨hp, hrest⟩ := forall_mem_cons.mp h
    rw [elementsAt, filterMap_cons_some (getElem?_eq_getElem hp), map_cons, map_cons, getElem?_eq_getElem hp]
    exact congrArg _ (ih hrest)

theorem elementsAt_length (h : ∀ p ∈ positions, p < items.length) :
    (elementsAt items positions).length = positions.length := by
  simpa using congrArg length (map_some_elementsAt h)

theorem elementsAt_take (h : ∀ p ∈ positions, p < items.length) (k : Nat) :
    (elementsAt items positions).take k = elementsAt items (positions.take k) := by
  refine map_injective_iff.mpr (fun _ _ => Option.some.inj) ?_
  rw [map_take, map_some_elementsAt h, ← map_take, map_some_elementsAt fun p hp => h p (mem_of_mem_take hp)]

def slotsAfter (items : List α) (taken : List Nat) : List (Option α) :=
  (range items.length).map fun i => if i ∈ taken then none else items[i]?

theorem slotsAfter_rest (items : List α) (taken : List Nat) :
    (slotsAfter items taken).filterMap id = elementsAt items ((range items.length).filter (· ∉ taken)) := by
  rw [slotsAfter, elementsAt, filterMap_map, filterMap_filter]
  simp

theorem slotsAfter_get (p : Nat) :
    (slotsAfter items taken)[p]? = items[p]?.map fun item => if p ∈ taken then none else some item := by
  by_cases hp : p < items.length <;> simp [slotsAfter, hp]

/-- Each position in turn, and then the rest. -/
theorem leadFrom_eq (h : Distinct items.length taken) (hle : taken.length ≤ max) :
    leadFrom max positions (slotsAfter items taken) (elementsAt items taken) =
      elementsAt items ((leadOrder items.length taken positions).take max) := by
  have hkept (taken : List Nat) (h : Distinct items.length taken) : (elementsAt items taken).length = taken.length :=
    elementsAt_length h.lt
  induction positions generalizing taken with
  | nil =>
    have hrange : ∀ p ∈ (range items.length).filter (· ∉ taken), p < items.length := fun p hp =>
      mem_range.mp (mem_filter.mp hp).1
    rw [leadFrom, slotsAfter_rest, hkept taken h, elementsAt_take hrange, leadOrder]
    rw [show leadingPositions items.length taken [] = taken from rfl, take_append, take_of_length_le hle]
    exact filterMap_append.symm
  | cons p rest ih =>
    rw [leadFrom, hkept taken h]
    split
    · next hfull =>
      have hextends : taken <+: leadOrder items.length taken (p :: rest) :=
        (leadingPositions_extends _ _ _).trans (prefix_append _ _)
      rw [← hfull, ← prefix_iff_eq_take.mp hextends]
    · next hroom =>
      have hskip (hnot : ¬ (p < items.length ∧ p ∉ taken)) :
          leadOrder items.length taken (p :: rest) = leadOrder items.length taken rest := by
        rw [leadOrder, leadOrder, leadingPositions, foldl_cons, if_neg hnot]
        rfl
      rw [slotsAfter_get]
      by_cases hp : p < items.length
      · rw [getElem?_eq_getElem hp]
        by_cases hmem : p ∈ taken
        · rw [Option.map_some, if_pos hmem, hskip fun hnew => hnew.2 hmem]
          exact ih h hle
        · rw [Option.map_some, if_neg hmem]
          have horder : leadOrder items.length taken (p :: rest) = leadOrder items.length (taken ++ [p]) rest := by
            rw [leadOrder, leadOrder, leadingPositions, foldl_cons, if_pos ⟨hp, hmem⟩]
            rfl
          have hslots : (slotsAfter items taken).set p none = slotsAfter items (taken ++ [p]) := by
            refine ext_getElem? fun i => ?_
            rw [getElem?_set, slotsAfter_get, slotsAfter_get]
            by_cases heq : p = i
            · subst heq
              simp [slotsAfter, hp]
            · simp [heq, Ne.symm heq]
          have hnext : elementsAt items taken ++ [items[p]] = elementsAt items (taken ++ [p]) := by
            rw [elementsAt, elementsAt, filterMap_append, filterMap_cons_some (getElem?_eq_getElem hp)]
            rfl
          dsimp only
          rw [hslots, hnext, horder]
          refine ih ?_ (by rw [length_append, length_singleton]; omega)
          have := @Distinct.leadingPositions items.length taken h [p]
          rwa [leadingPositions, foldl_cons, if_pos ⟨hp, hmem⟩] at this
      · rw [getElem?_eq_none (by omega), Option.map_none, hskip fun hnew => hp hnew.1]
        exact ih h hle

theorem leadWith_eq (items : List α) (positions : List Nat) (max : Nat) :
    leadWith items positions max = elementsAt items ((leadOrder items.length [] positions).take max) := by
  have hslots : items.map some = slotsAfter items [] := by
    refine ext_getElem? fun i => ?_
    rw [getElem?_map, slotsAfter_get]
    rfl
  rw [leadWith, hslots]
  exact leadFrom_eq ⟨nodup_nil, nofun⟩ (Nat.zero_le _)

end Lead

/-! ### Documents -/

section Document
variable {max : Nat} {doc : JsonValue} {members : List (String × JsonValue)} {key path : String}
  {value : JsonValue} {n : Nat}

def membersOf (doc : JsonValue) : List (String × JsonValue) := doc.asObject.getD []

/-- An array of a document that is longer than the cap, under a key of the document's own. -/
def Shortened (max : Nat) (doc : JsonValue) (path : String) (n : Nat) : Prop :=
  ∃ member ∈ membersOf doc, startsWith member.1 "_" = false ∧ ArrayAt max member.1 member.2 path n ∧ max < n

def cappedMembers (max : Nat) (members : List (String × JsonValue)) : List (String × JsonValue) :=
  members.map fun member => (member.1, (capMember max (fun _ => none) member.1 member.2).value)

/-- The entries for the account. -/
def cutsOf (max : Nat) (members : List (String × JsonValue)) : List (String × JsonValue) :=
  (members.flatMap fun member => (capMember max (fun _ => none) member.1 member.2).truncated).map fun cut =>
    (cut.1, jsonUsize cut.2)

theorem capMember_plain : capMember max (fun _ => none) key value =
    if startsWith key "_" then ⟨value, [], []⟩ else ⟨(capValue max key value).1, (capValue max key value).2, []⟩ := by
  unfold capMember
  split
  · rfl
  · split
    · next heq => cases heq
    · rfl

theorem capDocumentArrays_object : capDocumentArrays max (.object members) =
    .object (record (cappedMembers max members) truncatedArraysField (cutsOf max members)) := by
  have hmatched : (members.flatMap fun member => (capMember max (fun _ => none) member.1 member.2).matched) = [] := by
    refine flatMap_eq_nil_iff.mpr fun member _ => ?_
    rw [capMember_plain]
    split <;> rfl
  rw [capDocumentArrays, capDocumentArraysLeading]
  simp only [flatMap_map, map_map]
  rw [hmatched]
  rfl

theorem mem_cutsOf {entry : String × JsonValue} :
    entry ∈ cutsOf max members ↔ ∃ n, Shortened max (.object members) entry.1 n ∧ entry.2 = jsonUsize n := by
  unfold cutsOf
  rw [mem_map]
  constructor
  · rintro ⟨⟨target, n⟩, hcut, rfl⟩
    obtain ⟨member, hmember, hin⟩ := mem_flatMap.mp hcut
    rw [capMember_plain] at hin
    split at hin
    · cases hin
    · next hown => exact ⟨n, ⟨member, hmember, Bool.eq_false_iff.mpr hown, (mem_capValue_cut _ _ _ _).mp hin⟩, rfl⟩
  · rintro ⟨n, ⟨member, hmember, hown, hat⟩, heq⟩
    refine ⟨(entry.1, n), mem_flatMap.mpr ⟨member, hmember, ?_⟩, by rw [← heq]⟩
    rw [capMember_plain, if_neg (by simp [hown])]
    exact (mem_capValue_cut _ _ _ _).mpr hat

theorem lookup_cappedMembers (hmeta : startsWith key "_" = true) :
    (cappedMembers max members).lookup key = members.lookup key := by
  rw [cappedMembers, lookup_eq_findSome?, lookup_eq_findSome?, findSome?_map]
  congr
  funext member
  by_cases heq : key = member.1
  · simp [← heq, capMember_plain, hmeta]
  · simp [heq]

theorem truncatedArraysField_meta : startsWith truncatedArraysField "_" = true := by decide

theorem matchedElementsField_meta : startsWith matchedElementsField "_" = true := by decide

theorem ne_of_own {field : String} (hown : startsWith key "_" = false) (hmeta : startsWith field "_" = true) :
    key ≠ field := by
  rintro rfl
  rw [hmeta] at hown
  cases hown

variable {items : List JsonValue}

theorem capDocumentArrays_bounded (h : (key, value) ∈ membersOf (capDocumentArrays max doc))
    (hown : startsWith key "_" = false) (hin : ArrayIn value items) : items.length ≤ max := by
  cases doc with
  | object members =>
    rw [capDocumentArrays_object] at h
    have hmem : (key, value) ∈ cappedMembers max members := (mem_record (ne_of_own hown truncatedArraysField_meta)).mp h
    obtain ⟨member, -, heq⟩ := mem_map.mp hmem
    rw [Prod.mk.injEq] at heq
    obtain ⟨rfl, rfl⟩ := heq
    rw [capMember_plain, if_neg (by simp [hown])] at hin
    exact capValue_bounded _ _ _ hin
  | null | bool | number | string | array => cases h

theorem capDocumentArrays_idempotent (max : Nat) (doc : JsonValue) :
    capDocumentArrays max (capDocumentArrays max doc) = capDocumentArrays max doc := by
  have hbounded {key : String} {value : JsonValue} := @capDocumentArrays_bounded max doc key value
  cases doc with
  | object members =>
    rw [capDocumentArrays_object] at hbounded ⊢
    -- Of what is capped already, every member is left as it is and nothing is cut.
    have hsame : ∀ member ∈ record (cappedMembers max members) truncatedArraysField (cutsOf max members),
        capMember max (fun _ => none) member.1 member.2 = ⟨member.2, [], []⟩ := by
      intro member hmember
      rw [capMember_plain]
      split
      · rfl
      · next hown =>
        rw [capValue_eq_self member.2 fun found hin => hbounded hmember (Bool.eq_false_iff.mpr hown) hin]
    have hcuts : cutsOf max (record (cappedMembers max members) truncatedArraysField (cutsOf max members)) = [] := by
      unfold cutsOf
      rw [map_eq_nil_iff, flatMap_eq_nil_iff]
      exact fun member hmember => by rw [hsame member hmember]
    have hmembers : cappedMembers max (record (cappedMembers max members) truncatedArraysField (cutsOf max members)) =
        record (cappedMembers max members) truncatedArraysField (cutsOf max members) := by
      unfold cappedMembers
      refine (map_congr_left fun member hmember => ?_).trans (map_id _)
      rw [hsame member hmember]
      rfl
    rw [capDocumentArrays_object, hcuts, hmembers]
    rfl
  | null | bool | number | string | array => rfl

/-- The account a document comes with leaves room for that of its arrays, and no two of them share a path and differ
    in length. -/
def AccountFits (max : Nat) (doc : JsonValue) : Prop :=
  ∀ path n, Shortened max doc path n →
    (∀ found, (membersOf doc).lookup truncatedArraysField = some found → ∃ account, found = .object account) ∧
    (∀ found, accountOf (membersOf doc) truncatedArraysField path = some found → found = jsonUsize n) ∧
    ∀ m, Shortened max doc path m → jsonUsize m = jsonUsize n

theorem exists_lookup_of_mem {entries : List (String × JsonValue)} (h : (path, value) ∈ entries) :
    ∃ first, entries.lookup path = some first ∧ (path, first) ∈ entries := by
  obtain ⟨first, hlookup⟩ := Option.isSome_iff_exists.mp (lookup_isSome_iff.mpr ⟨_, h, beq_self_eq_true path⟩)
  obtain ⟨front, back, rfl, -⟩ := lookup_eq_some_iff.mp hlookup
  exact ⟨first, hlookup, mem_append_right front mem_cons_self⟩

/-- What stands under a path is the first cut there, unless the document came with an entry. -/
theorem accountOf_capped (h : Shortened max (.object members) path n) : ∃ m, Shortened max (.object members) path m ∧
    (accountOf (record (cappedMembers max members) truncatedArraysField (cutsOf max members))
    truncatedArraysField path = some value ↔
      (∀ found, members.lookup truncatedArraysField = some found → ∃ account, found = .object account) ∧
        (accountOf members truncatedArraysField path).getD (jsonUsize m) = value) := by
  obtain ⟨first, hlookup, hin⟩ := exists_lookup_of_mem
    (mem_cutsOf.mpr ⟨n, h, rfl⟩ : (path, jsonUsize n) ∈ cutsOf max members)
  obtain ⟨m, hm, rfl⟩ := mem_cutsOf.mp hin
  refine ⟨m, hm, ?_⟩
  rw [accountOf_record hlookup, accountOf, lookup_cappedMembers truncatedArraysField_meta]
  rfl

theorem recorded_iff (max : Nat) (doc : JsonValue) :
    (∀ path n, Shortened max doc path n →
      accountOf (membersOf (capDocumentArrays max doc)) truncatedArraysField path = some (jsonUsize n)) ↔
      AccountFits max doc := by
  cases doc with
  | object members =>
    rw [capDocumentArrays_object]
    constructor
    · intro hrecorded path n h
      obtain ⟨m, -, haccount⟩ := accountOf_capped h
      obtain ⟨hobject, hfirst⟩ := haccount.mp (hrecorded path n h)
      refine ⟨hobject, fun found hfound => ?_, fun m hm => ?_⟩
      · rwa [show accountOf members truncatedArraysField path = _ from hfound] at hfirst
      · exact Option.some.inj ((hrecorded path m hm).symm.trans (hrecorded path n h))
    · intro hfits path n h
      obtain ⟨hobject, hentry, hsame⟩ := hfits path n h
      obtain ⟨m, hm, haccount⟩ := accountOf_capped h
      refine haccount.mpr ⟨hobject, ?_⟩
      cases hfound : accountOf members truncatedArraysField path with
      | none => exact hsame m hm
      | some entry => exact hentry entry hfound
  | null | bool | number | string | array =>
    refine iff_of_true ?_ ?_
    · rintro path n ⟨member, hmember, -⟩
      cases hmember
    · rintro path n ⟨member, hmember, -⟩
      cases hmember

theorem mem_capLeading {leading : String → Option (List Nat)} {positions : List Nat}
    (h : (key, .array items) ∈ membersOf doc)
    (hown : startsWith key "_" = false) (hleading : leading key = some positions) (hpositions : positions ≠ [])
    (hlong : max < items.length) :
    (key, .array ((elementsAt items ((leadOrder items.length [] positions).take max)).mapIdx fun i item =>
      (capValue max (elementPath key i) item).1)) ∈ membersOf (capDocumentArraysLeading max leading doc) := by
  cases doc with
  | object members =>
    rw [capDocumentArraysLeading]
    show _ ∈ record _ _ _
    rw [mem_record (ne_of_own hown matchedElementsField_meta),
      mem_record (ne_of_own hown truncatedArraysField_meta), map_map]
    refine mem_map.mpr ⟨(key, .array items), h, ?_⟩
    have hlength : (elementsAt items ((leadOrder items.length [] positions).take max)).length ≤ max := by
      rw [elementsAt_length fun p hp => mem_range.mp ((leadOrder_perm _ _).mem_iff.mp (mem_of_mem_take hp))]
      exact length_take_le ..
    simp only [Function.comp, capMember, hown, hleading, Bool.false_eq_true, if_false]
    rw [if_pos ⟨hlong, hpositions⟩, leadWith_eq, capValue, capItems_eq, take_of_length_le (by omega)]
    simp only [mapIdx_eq_zipIdx_map, map_map, Nat.zero_add]
    rfl
  | null | bool | number | string | array => cases h

/-- Arrays are capped, once and for all, and what was cut is accounted for. -/
structure CapsArrays (max : Nat) (doc : JsonValue) : Prop where
  /-- No array under a key of the document's own is longer than the cap. -/
  bounded : ∀ key value, (key, value) ∈ membersOf (capDocumentArrays max doc) → startsWith key "_" = false →
    ∀ items, ArrayIn value items → items.length ≤ max
  /-- Capping again changes nothing. -/
  idempotent : capDocumentArrays max (capDocumentArrays max doc) = capDocumentArrays max doc
  /-- Every array that was cut is recorded under its path with the length it had. -/
  recorded : ∀ path n, Shortened max doc path n →
    accountOf (membersOf (capDocumentArrays max doc)) truncatedArraysField path = some (jsonUsize n)
  /-- An array led by positions keeps the first of all its elements, those at the positions in front. -/
  leading : ∀ (leading : String → Option (List Nat)) (key : String) (items : List JsonValue) (positions : List Nat),
    (key, .array items) ∈ membersOf doc → startsWith key "_" = false → leading key = some positions → positions ≠ [] →
      max < items.length → (leadOrder items.length [] positions).Perm (range items.length) ∧
        (key, .array ((elementsAt items ((leadOrder items.length [] positions).take max)).mapIdx fun i item =>
          (capValue max (elementPath key i) item).1)) ∈ membersOf (capDocumentArraysLeading max leading doc)

/-- Capping does all it should exactly where the account fits. -/
theorem capsArrays_iff (max : Nat) (doc : JsonValue) : CapsArrays max doc ↔ AccountFits max doc := by
  rw [← recorded_iff]
  constructor
  · exact fun h => h.recorded
  · intro hrecorded
    refine ⟨fun key value hmem hown items hin => capDocumentArrays_bounded hmem hown hin,
      capDocumentArrays_idempotent max doc, hrecorded,
      fun leading key items positions hmem hown hleading hpositions hlong => ⟨leadOrder_perm _ _, ?_⟩⟩
    exact mem_capLeading hmem hown hleading hpositions hlong

def onePath : JsonValue :=
  .object [("a.b", .array [.null, .null]), ("a", .object [("b", .array [.null, .null, .null])])]

theorem capDocumentArrays_loses : capDocumentArrays 1 onePath =
    .object [("a.b", .array [.null]), ("a", .object [("b", .array [.null])]),
      ("_truncated_arrays", .object [("a.b", jsonUsize 2)])] ∧
    Shortened 1 onePath "a.b" 3 ∧ ¬ CapsArrays 1 onePath := by
  have hcap : capDocumentArrays 1 onePath = .object [("a.b", .array [.null]), ("a", .object [("b", .array [.null])]),
      ("_truncated_arrays", .object [("a.b", jsonUsize 2)])] := by
    decide
  have hcut : Shortened 1 onePath "a.b" 3 :=
    ⟨("a", .object [("b",
      .array [.null, .null, .null])]), by decide, by decide, .member mem_cons_self (.here "a.b" _), by decide⟩
  refine ⟨hcap, hcut, fun h => ?_⟩
  have hrecorded := h.recorded "a.b" 3 hcut
  rw [hcap] at hrecorded
  revert hrecorded
  decide

end Document

end CameoDb
