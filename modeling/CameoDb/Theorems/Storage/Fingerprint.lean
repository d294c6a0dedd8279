import CameoDb.Storage.Agreement

/-! # What the thumbprint's bytes tell apart

A field ends before a mark or before the length of the next name. The bytes are read in one way unless such a length
begins like a mark the other schema has in that place. -/

namespace CameoDb
open List FieldDef

def SameBuffer (a b : List UInt8) : Prop := a = b ∧ a.length < u64Limit

/-- The bytes of a value give what `view` shows of it, and nothing that comes after them can be taken for a part of
    them. -/
def SelfDelimiting {α β : Type} (push : α → List UInt8) (view : α → β) : Prop :=
  ∀ a b rest rest', SameBuffer (push a ++ rest) (push b ++ rest') → view a = view b ∧ SameBuffer rest rest'

theorem toList_eq_data (bytes : ByteArray) : bytes.toList = bytes.data.toList := by
  have hloop (i : Nat) (r : List UInt8) : ByteArray.toList.loop bytes i r = r.reverse ++ bytes.data.toList.drop i := by
    induction i, r using ByteArray.toList.loop.induct bytes with
    | case1 i r h ih =>
      have hi : i < bytes.data.toList.length := h
      have hget : bytes.get! i = bytes.data.toList[i] := by
        rw [Array.getElem_toList]
        exact getElem!_pos bytes.data i h
      rw [ByteArray.toList.loop, if_pos h, ih, drop_eq_getElem_cons hi, hget, reverse_cons, append_assoc]
      rfl
    | case2 i r h => rw [ByteArray.toList.loop, if_neg h, drop_of_length_le (Nat.le_of_not_lt h), append_nil]
  exact hloop 0 []

theorem leBytes_inj {n m : Nat} (hn : n < u64Limit) (hm : m < u64Limit) (h : leBytes n = leBytes m) : n = m := by
  have hdigit (i : Nat) (hi : i < 8) : n / 256 ^ i % 256 = m / 256 ^ i % 256 := by
    simpa using congrArg UInt8.toNat (map_inj_left.mp h i (mem_range.mpr hi))
  have h0 := hdigit 0 (by decide)
  have h1 := hdigit 1 (by decide)
  have h2 := hdigit 2 (by decide)
  have h3 := hdigit 3 (by decide)
  have h4 := hdigit 4 (by decide)
  have h5 := hdigit 5 (by decide)
  have h6 := hdigit 6 (by decide)
  have h7 := hdigit 7 (by decide)
  simp only [u64Limit, Nat.reducePow, Nat.div_one] at *
  omega

@[simp] theorem length_leBytes (n : Nat) : (leBytes n).length = 8 := by simp [leBytes]

@[simp] theorem length_toByteArray (text : String) : text.toByteArray.toList.length = text.utf8ByteSize := by
  rw [toList_eq_data]
  rfl

namespace SameBuffer
variable {rest rest' : List UInt8}

theorem symm {a b : List UInt8} (h : SameBuffer a b) : SameBuffer b a := ⟨h.1.symm, h.1 ▸ h.2⟩

theorem tail {x y : UInt8} (h : SameBuffer (x :: rest) (y :: rest')) : x = y ∧ SameBuffer rest rest' := by
  obtain ⟨heq, hlen⟩ := h
  obtain ⟨rfl, rfl⟩ := cons.inj heq
  exact ⟨rfl, rfl, Nat.lt_of_succ_lt hlen⟩

theorem leBytes {n m : Nat} (h : SameBuffer (leBytes n ++ rest) (leBytes m ++ rest')) (hn : n ≤ rest.length)
    (hm : m ≤ rest'.length) : n = m ∧ SameBuffer rest rest' := by
  obtain ⟨heq, hlen⟩ := h
  obtain ⟨hbytes, rfl⟩ := append_inj heq (by simp)
  simp only [length_append, length_leBytes] at hlen
  exact ⟨leBytes_inj (by omega) (by omega) hbytes, rfl, by omega⟩

end SameBuffer

theorem selfDelimiting_pushStr : SelfDelimiting pushStr id := by
  intro a b rest rest' h
  simp only [pushStr, append_assoc] at h
  obtain ⟨hsize, heq, hlen⟩ := h.leBytes (by simp) (by simp)
  obtain ⟨htext, rfl⟩ := append_inj heq (by simpa using hsize)
  rw [toList_eq_data, toList_eq_data, Array.toList_inj] at htext
  simp only [length_append] at hlen
  exact ⟨String.toByteArray_inj.mp (ByteArray.ext htext), rfl, by omega⟩

theorem selfDelimiting_pushOpt : SelfDelimiting pushOpt id := by
  rintro (_ | a) (_ | b) rest rest' h <;> obtain ⟨hmark, h⟩ := h.tail
  · exact ⟨rfl, h⟩
  · exact absurd hmark (by decide)
  · exact absurd hmark (by decide)
  · obtain ⟨rfl, hrest⟩ := selfDelimiting_pushStr a b rest rest' h
    exact ⟨rfl, hrest⟩

theorem selfDelimiting_pushBool : SelfDelimiting pushBool id := by
  rintro a b rest rest' h
  obtain ⟨hmark, h⟩ := h.tail
  cases a <;> cases b <;> simp_all

theorem selfDelimiting_texts : SelfDelimiting
    (fun texts : List String => leBytes texts.length ++ texts.flatMap pushStr) id := by
  have hle (texts : List String) (more : List UInt8) : texts.length ≤ (texts.flatMap pushStr ++ more).length := by
    induction texts with
    | nil => simp
    | cons text texts ih => simp only [flatMap_cons, pushStr, length_append, length_leBytes, length_cons] at ih ⊢; omega
  intro a b rest rest' h
  simp only [append_assoc] at h
  replace ⟨hlen, h⟩ := h.leBytes (hle a rest) (hle b rest')
  induction a generalizing b with
  | nil =>
    cases length_eq_zero_iff.mp hlen.symm
    exact ⟨rfl, h⟩
  | cons x a ih =>
    obtain _ | ⟨y, b⟩ := b
    · cases hlen
    · simp only [flatMap_cons, append_assoc] at h
      obtain ⟨rfl, hothers⟩ := selfDelimiting_pushStr x y _ _ h
      obtain ⟨rfl, hrest⟩ := ih b (Nat.succ.inj hlen) hothers
      exact ⟨rfl, hrest⟩

/-- A part behind a mark, there or not. What follows where it is not does not begin with the mark of one that is. -/
theorem SelfDelimiting.optional {α β : Type} {mark : UInt8} {push : α → List UInt8} {view : α → β}
    (hpush : SelfDelimiting push view) {o o' : Option α} {rest rest' : List UInt8}
    (h : SameBuffer (o.elim [] (fun a => mark :: push a) ++ rest) (o'.elim [] (fun a => mark :: push a) ++ rest'))
    (hrest : o = none → o' ≠ none → rest.head? ≠ some mark) (hrest' : o' = none → o ≠ none → rest'.head? ≠ some mark) :
    o.map view = o'.map view ∧ SameBuffer rest rest' := by
  cases o <;> cases o'
  · exact ⟨rfl, h⟩
  · exact absurd (congrArg head? h.1) (hrest rfl (by simp))
  · exact absurd (congrArg head? h.1).symm (hrest' rfl (by simp))
  · obtain ⟨hview, hrest⟩ := hpush _ _ _ _ h.tail.2
    exact ⟨congrArg some hview, hrest⟩

/-! ### What is hashed of a schema -/

def GhostCondition.hashed (p : Parsers) (when_ : GhostCondition) : Bool × String × List String :=
  (when_.notIn.isSome, when_.field, when_.values.map p.jsonText)

def Ghost.hashed (p : Parsers) (ghost : Ghost) : String × Option (Bool × String × List String) :=
  (ghost.source, ghost.when_.map (GhostCondition.hashed p))

/-- What is hashed of a field before its marks. -/
def FieldDef.unmarked (field : FieldDef) :
    TantivyFieldType × (Bool × Bool × Bool × Bool) × Option String × Option String × Option String :=
  (field.fieldType, (field.indexed, field.stored, field.isFast, field.isShadow), field.description, field.tokenizer,
    field.indexRecordOption)

def FieldDef.marks (p : Parsers) (field : FieldDef) : Bool × Option (String × Option (Bool × String × List String)) :=
  (field.learned, field.ghost.map (Ghost.hashed p))

def FieldDef.hashed (p : Parsers) (entry : String × FieldDef) := (entry.1, entry.2.unmarked, entry.2.marks p)

namespace IndexSchema

def hashedFields (schema : IndexSchema) : List (String × FieldDef) :=
  schema.fields.toList.filter fun entry => entry.1 ≠ "_seq"

/-- The schemas agree on all that the fingerprint reads. -/
def AgreeHashed (p : Parsers) (s t : IndexSchema) : Prop :=
  s.hashedFields.map (hashed p) = t.hashedFields.map (hashed p) ∧
    s.routingFieldName = t.routingFieldName ∧ s.description = t.description ∧ s.defaultFields = t.defaultFields ∧
      s.idFields = t.idFields

end IndexSchema

/-- The name after each field: the next field's, and the routing field's after the last. -/
def withFollowers (fields : List (String × FieldDef)) (routing : String) : List ((String × FieldDef) × String) :=
  fields.zip (fields.map Prod.fst ++ [routing]).tail

/-- The length of the name after a field begins like a mark another definition of the field has in this place: `L`
    for a learned field, or `G` for a ghost. -/
def TakenForMark (next : String) (field other : FieldDef) : Prop :=
  field.unmarked = other.unmarked ∧ field.ghost = none ∧
    (field.learned = false ∧ other.learned = true ∧ next.utf8ByteSize % 256 = 0x4C ∨
      field.learned = other.learned ∧ other.ghost ≠ none ∧ next.utf8ByteSize % 256 = 0x47)

/-- No name in `s` has a length that a field of `t` makes look like a mark. -/
def IndexSchema.Unmistaken (s t : IndexSchema) : Prop :=
  ∀ e ∈ withFollowers s.hashedFields s.routingFieldName, ∀ other, (e.1.1, other) ∈ t.hashedFields →
    ¬ TakenForMark e.2 e.1.2 other

section Fields
variable {p : Parsers} {rest rest' : List UInt8}

theorem head?_pushStr (text : String) (rest : List UInt8) :
    (pushStr text ++ rest).head? = some (UInt8.ofNat text.utf8ByteSize) := by
  simp [pushStr, leBytes, range_succ_eq_map]

theorem head?_pushStr_eq {text : String} {mark : UInt8} (h : (pushStr text ++ rest).head? = some mark) :
    text.utf8ByteSize % 256 = mark.toNat := by
  rw [head?_pushStr] at h
  simpa using congrArg UInt8.toNat (Option.some.inj h)

theorem TantivyFieldType.name_inj {a b : TantivyFieldType} (h : a.name = b.name) : a = b := by
  cases a <;> cases b <;> first | rfl | exact absurd h (by decide)

def pushUnmarked (field : FieldDef) : List UInt8 :=
  pushStr field.fieldType.name ++
    (pushBool field.indexed ++ (pushBool field.stored ++ (pushBool field.isFast ++ (pushBool field.isShadow ++
    (pushOpt field.description ++ (pushOpt field.tokenizer ++ pushOpt field.indexRecordOption))))))

theorem selfDelimiting_pushUnmarked : SelfDelimiting pushUnmarked unmarked := by
  intro f g rest rest' h
  simp only [pushUnmarked, append_assoc] at h
  obtain ⟨htype, h⟩ := selfDelimiting_pushStr _ _ _ _ h
  obtain ⟨hindexed, h⟩ := selfDelimiting_pushBool _ _ _ _ h
  obtain ⟨hstored, h⟩ := selfDelimiting_pushBool _ _ _ _ h
  obtain ⟨hfast, h⟩ := selfDelimiting_pushBool _ _ _ _ h
  obtain ⟨hshadow, h⟩ := selfDelimiting_pushBool _ _ _ _ h
  obtain ⟨hdescription, h⟩ := selfDelimiting_pushOpt _ _ _ _ h
  obtain ⟨htokenizer, h⟩ := selfDelimiting_pushOpt _ _ _ _ h
  obtain ⟨hoption, h⟩ := selfDelimiting_pushOpt _ _ _ _ h
  refine ⟨?_, h⟩
  simp_all [unmarked, TantivyFieldType.name_inj htype]

/-- A ghost without its mark. -/
def pushGhostBody (p : Parsers) (ghost : Ghost) : List UInt8 := (pushGhost p ghost).tail

theorem selfDelimiting_pushGhostBody : SelfDelimiting (pushGhostBody p) (Ghost.hashed p) := by
  intro a b rest rest' h
  simp only [pushGhostBody, pushGhost, cons_append, tail_cons, append_assoc] at h
  obtain ⟨hsource, h⟩ := selfDelimiting_pushStr _ _ _ _ h
  cases hw : a.when_ <;> cases hw' : b.when_ <;> simp only [hw, hw', cons_append, nil_append, append_assoc] at h
  · exact ⟨by simp_all [Ghost.hashed], h.tail.2⟩
  · exact absurd h.tail.1 (by split <;> decide)
  · exact absurd h.tail.1 (by split <;> decide)
  · next u v =>
    obtain ⟨hmark, h⟩ := h.tail
    obtain ⟨hfield, h⟩ := selfDelimiting_pushStr _ _ _ _ h
    obtain ⟨hvalues, h⟩ := selfDelimiting_texts (u.values.map p.jsonText) (v.values.map p.jsonText) rest rest'
      (by simpa [flatMap_map] using h)
    have hin : u.notIn.isSome = v.notIn.isSome := by
      cases hu : u.notIn.isSome <;> cases hv : v.notIn.isSome <;> simp_all
    exact ⟨by simp_all [Ghost.hashed, GhostCondition.hashed], h⟩

/-- A field behind its name. -/
def pushDefinition (p : Parsers) (field : FieldDef) : List UInt8 :=
  pushUnmarked field ++ ((if field.learned then some () else none).elim [] (fun _ => [0x4C]) ++
    field.ghost.elim [] fun ghost => 0x47 :: pushGhostBody p ghost)

theorem pushField_eq (name : String) (field : FieldDef) :
    pushField p name field = pushStr name ++ pushDefinition p field := by
  cases hghost : field.ghost <;> cases hlearned : field.learned <;>
    simp [pushField, pushDefinition, pushUnmarked, pushGhostBody, pushGhost, hghost, hlearned]

/-- What follows a field is told from the marks another has by its first byte. -/
def ToldApart (rest : List UInt8) (field other : FieldDef) : Prop :=
  field.ghost = none → (field.learned = false → other.learned = true → rest.head? ≠ some 0x4C) ∧
    (field.learned = other.learned → other.ghost ≠ none → rest.head? ≠ some 0x47)

theorem SameBuffer.definition {f g : FieldDef}
    (h : SameBuffer (pushDefinition p f ++ rest) (pushDefinition p g ++ rest'))
    (hrest : f.unmarked = g.unmarked → ToldApart rest f g) (hrest' : g.unmarked = f.unmarked → ToldApart rest' g f) :
    (f.unmarked, f.marks p) = (g.unmarked, g.marks p) ∧ SameBuffer rest rest' := by
  simp only [pushDefinition, append_assoc] at h
  obtain ⟨hfield, h⟩ := selfDelimiting_pushUnmarked _ _ _ _ h
  replace hrest := hrest hfield
  replace hrest' := hrest' hfield.symm
  have hghost (field other : FieldDef) (rest : List UInt8) (hrest : ToldApart rest field other)
      (hlearned : (if field.learned then some () else none) = none)
        (hother : (if other.learned then some () else none) ≠ none) :
      (field.ghost.elim [] (fun ghost => 0x47 :: pushGhostBody p ghost) ++ rest).head? ≠ some 0x4C := by
    cases hghost : field.ghost with
    | none => exact (hrest hghost).1 (by simpa using hlearned) (by simpa using hother)
    | some ghost => simp
  have hunit : SelfDelimiting (fun _ : Unit => []) id := fun _ _ _ _ h => ⟨rfl, h⟩
  obtain ⟨hlearned, h⟩ := hunit.optional h (hghost f g rest hrest) (hghost g f rest' hrest')
  replace hlearned : f.learned = g.learned := by cases hf : f.learned <;> cases hg : g.learned <;> simp_all
  obtain ⟨hghosts, h⟩ := selfDelimiting_pushGhostBody.optional h (fun hnone => (hrest hnone).2 hlearned)
    fun hnone => (hrest' hnone).2 hlearned.symm
  refine ⟨?_, h⟩
  rw [hfield, marks, marks, hlearned, hghosts]

/-- Behind a name the length of a type's tells a field from the index's own properties: it is neither of `pushOpt`'s
    marks. -/
theorem not_sameBuffer_definition {description : Option String} {field : FieldDef} :
    ¬ SameBuffer (pushOpt description ++ rest) (pushDefinition p field ++ rest') := by
  intro h
  have hhead := congrArg head? h.1
  rw [pushDefinition, pushUnmarked, append_assoc, append_assoc, head?_pushStr] at hhead
  have htype : UInt8.ofNat field.fieldType.name.utf8ByteSize ∉ [0, 1] := by cases field.fieldType <;> decide +kernel
  have hmark : (pushOpt description ++ rest).head? = some (if description.isSome then 1 else 0) := by
    cases description <;> rfl
  refine htype ?_
  rw [← Option.some.inj (hmark.symm.trans hhead)]
  split_ifs <;> simp

variable (p rest) in
/-- The name after the first field, and what its length is not taken for. -/
theorem exists_follower (entry : String × FieldDef) (fields : List (String × FieldDef)) (routing : String)
    (other : FieldDef) :
    ∃ next, withFollowers (entry :: fields) routing = (entry, next) :: withFollowers fields routing ∧
      (¬ TakenForMark next entry.2 other → entry.2.unmarked = other.unmarked →
        ToldApart (fields.flatMap (fun e => pushStr e.1 ++ pushDefinition p e.2) ++ (pushStr routing ++ rest))
          entry.2 other) := by
  obtain ⟨next, more, hmore, hfollowers⟩ : ∃ next more,
      fields.flatMap (fun e => pushStr e.1 ++ pushDefinition p e.2) ++ (pushStr routing ++ rest) =
        pushStr next ++ more ∧
        withFollowers (entry :: fields) routing = (entry, next) :: withFollowers fields routing := by
    cases fields with
    | nil => exact ⟨routing, rest, rfl, rfl⟩
    | cons first fields => exact ⟨first.1, _, by rw [flatMap_cons, append_assoc, append_assoc], rfl⟩
  refine ⟨next, hfollowers, fun htaken hunmarked hghost => ?_⟩
  rw [hmore]
  exact ⟨fun hlearned hother hhead => htaken ⟨hunmarked, hghost, .inl ⟨hlearned, hother, head?_pushStr_eq hhead⟩⟩,
    fun hlearned hother hhead => htaken ⟨hunmarked, hghost, .inr ⟨hlearned, hother, head?_pushStr_eq hhead⟩⟩⟩

theorem SameBuffer.fields {fields fields' : List (String × FieldDef)} {routing routing' : String}
    {description description' : Option String}
    (h : SameBuffer (fields.flatMap (fun e => pushField p e.1 e.2) ++
    (pushStr routing ++ (pushOpt description ++ rest)))
      (fields'.flatMap (fun e => pushField p e.1 e.2) ++ (pushStr routing' ++ (pushOpt description' ++ rest'))))
    (hnames : ∀ e ∈ withFollowers fields routing, ∀ other, (e.1.1, other) ∈ fields' → ¬ TakenForMark e.2 e.1.2 other)
    (hnames' : ∀ e ∈ withFollowers fields' routing', ∀ other, (e.1.1, other) ∈ fields →
    ¬ TakenForMark e.2 e.1.2 other) :
    fields.map (hashed p) = fields'.map (hashed p) ∧ routing = routing' ∧ description = description' ∧
      SameBuffer rest rest' := by
  simp only [pushField_eq] at h
  induction fields generalizing fields' with
  | nil =>
    cases fields' with
    | nil =>
      obtain ⟨hrouting, h⟩ := selfDelimiting_pushStr _ _ _ _ h
      obtain ⟨hdescription, h⟩ := selfDelimiting_pushOpt _ _ _ _ h
      exact ⟨rfl, hrouting, hdescription, h⟩
    | cons entry' fields' =>
      simp only [flatMap_cons, append_assoc] at h
      exact (not_sameBuffer_definition (selfDelimiting_pushStr _ _ _ _ h).2).elim
  | cons entry fields ih =>
    cases fields' with
    | nil =>
      simp only [flatMap_cons, append_assoc] at h
      exact (not_sameBuffer_definition (selfDelimiting_pushStr _ _ _ _ h).2.symm).elim
    | cons entry' fields' =>
      simp only [flatMap_cons, append_assoc] at h
      obtain ⟨hname, h⟩ := selfDelimiting_pushStr _ _ _ _ h
      replace hname : entry.1 = entry'.1 := hname
      obtain ⟨next, hfollowers, hapart⟩ := exists_follower p (pushOpt description ++ rest) entry fields routing
        entry'.2
      obtain ⟨next', hfollowers', hapart'⟩ := exists_follower p (pushOpt description' ++ rest') entry' fields' routing'
        entry.2
      rw [hfollowers, forall_mem_cons] at hnames
      rw [hfollowers', forall_mem_cons] at hnames'
      obtain ⟨hfield, h⟩ := h.definition (hapart (hnames.1 entry'.2 (by simp [hname])))
        (hapart' (hnames'.1 entry.2 (by simp [← hname])))
      obtain ⟨hfields, hothers⟩ := ih (fun e he other hother => hnames.2 e he other (mem_cons_of_mem _ hother))
        (fun e he other hother => hnames'.2 e he other (mem_cons_of_mem _ hother)) h
      refine ⟨?_, hothers⟩
      rw [map_cons, map_cons, hfields, hashed, hashed, hfield, hname]

end Fields

/-- Two schemas with one and the same bytes agree on everything that is hashed, unless the length of the name after
    a field begins like a mark that this field has in the other schema only. So schemas without learned fields and
    ghosts always do. -/
theorem fingerprintBytes_inj (p : Parsers) (s t : IndexSchema) (hs : s.Unmistaken t) (ht : t.Unmistaken s)
    (hlen : (s.fingerprintBytes p).length < u64Limit)
    (h : s.fingerprintBytes p = t.fingerprintBytes p) : s.AgreeHashed p t := by
  let push (names : List String) : List UInt8 := leBytes names.length ++ names.flatMap pushStr
  have hbytes (schema : IndexSchema) : schema.fingerprintBytes p =
      schema.hashedFields.flatMap (fun e => pushField p e.1 e.2) ++
        (pushStr schema.routingFieldName ++ (pushOpt schema.description ++
        (schema.defaultFields.elim [] (fun names => 0xD5 :: push names) ++
          ((if schema.idFields = [] then none else some schema.idFields).elim []
            (fun names => 0x1D :: push names) ++ [])))) := by
    unfold IndexSchema.fingerprintBytes
    cases schema.defaultFields <;> split_ifs <;> simp [push, pushNames, IndexSchema.hashedFields]
  have hsame : SameBuffer (s.fingerprintBytes p) (t.fingerprintBytes p) := ⟨h, hlen⟩
  rw [hbytes, hbytes] at hsame
  obtain ⟨hfields, hrouting, hdescription, hsame⟩ := hsame.fields hs ht
  have hlast (ids : List String) : ((if ids = [] then none else some ids).elim [] (fun names => 0x1D :: push names)
      ++ []).head? ≠ some 0xD5 := by
    split_ifs <;> simp
  obtain ⟨hdefaults, hsame⟩ := selfDelimiting_texts.optional hsame (fun _ _ => hlast _) fun _ _ => hlast _
  obtain ⟨hids, -⟩ := selfDelimiting_texts.optional hsame (by simp) (by simp)
  refine ⟨hfields, hrouting, hdescription, by simpa using hdefaults, ?_⟩
  split_ifs at hids <;> simp_all

/-! ### A length that is taken for a mark -/

namespace MistakenMark

def parsers : Parsers := ⟨fun _ => "", fun _ => 0, fun _ => none, fun _ => false, fun _ => none, fun _ => none, id⟩

def field (name : String) : FieldDef := { newLearned name .text with learned := false }

def filler : List Char := replicate 66 'x'

/-- A name of 76 bytes, the code of `L`, that begins with a blank routing name's last byte, the mark of a
    description and its length. -/
def longName : String := String.ofList ([0, 1, 96, 0, 0, 0, 0, 0, 0, 0].map Char.ofNat ++ filler)

def twoFields : IndexSchema :=
  { IndexSchema.default with
    fields := ((∅ : Std.ExtTreeMap String FieldDef).insert "" (field "")).insert longName (field longName) }

/-- The rest of the second field, and of the schema, as a text. -/
def description : String :=
  String.ofList (filler ++ [4, 0, 0, 0, 0, 0, 0, 0].map Char.ofNat ++ ['t', 'e', 'x', 't'] ++
    replicate 7 (Char.ofNat 0) ++ [2, 0, 0, 0, 0, 0, 0, 0].map Char.ofNat ++ ['i', 'd', Char.ofNat 0])

def oneLearned : IndexSchema :=
  { IndexSchema.default with
    fields := (∅ : Std.ExtTreeMap String FieldDef).insert "" { field "" with learned := true }
    routingFieldName := ""
    description := some description }

end MistakenMark

open MistakenMark in
/-- A schema at another version has the same bytes; it may have a name of 76 bytes. -/
theorem fingerprintBytes_inj_version : twoFields.AgreeHashed parsers { twoFields with version := 2 } := by
  have hfields : twoFields.hashedFields = [("", field ""), (longName, field longName)] := by decide +kernel
  have hnames : twoFields.Unmistaken { twoFields with version := 2 } := by
    rintro ⟨⟨name, definition⟩, next⟩ - other hother ⟨-, -, ⟨-, hlearned, -⟩ | ⟨-, hghost, -⟩⟩ <;>
      (replace hother : (name, other) ∈ twoFields.hashedFields := hother
       rw [hfields] at hother
       obtain ⟨_, rfl⟩ | ⟨_, rfl⟩ : _ ∧ other = field "" ∨ _ ∧ other = field longName := by simpa using hother)
    · cases hlearned
    · cases hlearned
    · exact hghost rfl
    · exact hghost rfl
  exact fingerprintBytes_inj parsers twoFields { twoFields with version := 2 } hnames hnames (by decide +kernel) rfl

open MistakenMark in
theorem fingerprintBytes_not_inj : twoFields.normalizeAfterDeserialization parsers = twoFields ∧
    oneLearned.normalizeAfterDeserialization parsers = oneLearned ∧
    twoFields.fingerprintBytes parsers = oneLearned.fingerprintBytes parsers ∧
    ¬ twoFields.AgreeHashed parsers oneLearned := by
  refine ⟨by decide +kernel, by decide +kernel, ?_, fun h => ?_⟩
  · decide +kernel
  · exact absurd h.2.1 (by decide)

end CameoDb
