import CameoDb.Storage.DeleteQuery
import CameoDb.Theorems.Storage.Kept
import CameoDb.Theorems.Storage.Convergence

/-! # A delete by query removes no near miss

An accepted query reads its text clauses only where they are required, so the check against the rows settles them. -/

namespace CameoDb
open List BooleanQuery IndexSchema Std Crash

/-! ### Clauses against a row -/

def storedValues (p : Parsers) (name : String) (fieldType : TantivyFieldType) (value : JsonValue) : List TantivyValue :=
  match addJsonValueToDoc p name fieldType value .skipAndWarn with
  | .ok vs => vs
  | .error _ => []

/-- Whether a clause holds of a row, with text read as equality. -/
def IndexSchema.clauseHolds (schema : IndexSchema) (q : QueryEnv) (p : Parsers) (id : String) (body : Option JsonValue)
    (leaf : UserInputLeaf) : Bool :=
  match leaf.field? with
  | none => false
  | some name =>
    match schema.deleteKind name with
    | .error _ => false
    | .ok .key => q.ofValue .str leaf (.str id)
    | .ok .exact =>
      match schema.fields[name]? with
      | none => false
      | some defn => ((body.bind JsonValue.asObject).getD []).any fun m =>
          m.1 = name && (storedValues p name defn.fieldType m.2).any (q.ofValue defn.column.kind leaf)
    | .ok .text =>
      match leaf with
      | .literal l => holdsExactly (body.getD .null) ⟨name, l.phrase⟩
      | _ => false

def IndexSchema.IsText (schema : IndexSchema) (leaf : UserInputLeaf) : Prop :=
  ∃ name, leaf.field? = some name ∧ schema.deleteKind name = .ok .text

/-- Declared and built types agree: a column has the type its field declares, one of strings is not analyzed, and a
    shadow field has no column. -/
structure SchemaFields.Agrees (fields : SchemaFields) (schema : IndexSchema) : Prop where
  shadow : ∀ (name : String) (defn : FieldDef), schema.fields[name]? = some defn → defn.isShadow = true →
    name ∉ fields.columns
  kind : ∀ (name : String) (defn : FieldDef) (column : Column), schema.fields[name]? = some defn → defn.indexed = true →
    fields.columns[name]? = some column → column.kind = defn.column.kind
  raw : ∀ (name : String) (defn : FieldDef) (column : Column), schema.fields[name]? = some defn →
    defn.fieldType = .string → fields.columns[name]? = some column → column.analysis.map Prod.fst = some "raw"

/-! ### The screen -/

def IndexSchema.IsTerm (schema : IndexSchema) (leaf : UserInputLeaf) : Prop :=
  ∀ name, leaf.field? = some name → schema.deleteKind name = .ok .key ∨ schema.deleteKind name = .ok .exact

/-- The leaf's phrase is checked against the stored text. -/
def IndexSchema.Checked (schema : IndexSchema) (exact : List ExactText) (leaf : UserInputLeaf) : Prop :=
  ∃ l name, leaf = .literal l ∧ l.fieldName = some name ∧ schema.deleteKind name = .ok .text ∧ ⟨name, l.phrase⟩ ∈ exact

variable {schema : IndexSchema} {leaf : UserInputLeaf}

theorem IndexSchema.Checked.mono {exact exact' : List ExactText} (h : schema.Checked exact leaf)
    (hsub : exact ⊆ exact') : schema.Checked exact' leaf := by
  obtain ⟨l, name, hleaf, hname, hkind, hmem⟩ := h
  exact ⟨l, name, hleaf, hname, hkind, hsub hmem⟩

theorem IndexSchema.IsTerm.not_isText (h : schema.IsTerm leaf) : ¬schema.IsText leaf := by
  grind [IndexSchema.IsTerm, IndexSchema.IsText]

namespace Screen
variable {schema : IndexSchema} {screen screen' : Screen} {negated required : Bool}

theorem screenLiteral_ok {l : UserInputLiteral} (h : screen.screenLiteral schema l negated required = .ok screen') :
    (schema.IsTerm (.literal l) ∧ screen' = screen) ∨
      (negated = false ∧ required = true ∧ schema.Checked screen'.found (.literal l) ∧ screen.found ⊆ screen'.found ∧
        screen'.positive = screen.positive) := by
  unfold screenLiteral at h
  cases hname : l.fieldName with
  | none => simp [hname] at h
  | some name =>
    have hfield : (UserInputLeaf.literal l).field? = some name := hname
    simp only [hname] at h
    cases hkind : schema.deleteKind name with
    | error e => grind
    | ok kind =>
      cases kind with
      | key | exact => exact .inl ⟨by grind [IndexSchema.IsTerm], by grind⟩
      | text =>
        obtain rfl : { screen with found := screen.found ++ [⟨name, l.phrase⟩] } = screen' := by grind
        exact .inr ⟨by grind, by grind, ⟨l, name, rfl, hname, hkind, by simp⟩, by simp, rfl⟩

/-- A leaf the screen lets by is on a field the index matches exactly, or it is a required text clause and is noted. -/
theorem screenLeaf_ok {leaf : UserInputLeaf} (h : screen.screenLeaf schema leaf negated required = .ok screen') :
    (schema.IsTerm leaf ∧ screen' = screen) ∨
      (negated = false ∧ required = true ∧ schema.Checked screen'.found leaf ∧ screen.found ⊆ screen'.found ∧
        screen'.positive = screen.positive) := by
  cases leaf with
  | literal l => exact screenLiteral_ok h
  | range | set =>
    simp only [screenLeaf] at h
    exact .inl (by grind [IndexSchema.IsTerm, UserInputLeaf.field?])
  | all | exists_ | regex => cases h

/-- What the screen has found out when it has passed a query: each leaf is on a field the index matches exactly, or
    it is a text clause that is required, and noted; and a leaf is counted only if it is not negated. -/
structure Passed (schema : IndexSchema) (ast : UserInputAst) (negated required : Bool) (screen screen' : Screen) :
    Prop where
  leaf : ∀ e ∈ ast.leaves negated, schema.IsTerm e.2 ∨
    (e.1 = false ∧ required = true ∧ ast.Requires e.2 ∧ schema.Checked screen'.found e.2)
  found : screen.found ⊆ screen'.found
  positive : screen'.positive = screen.positive ∨ ∃ l, (false, l) ∈ ast.leaves negated

variable {ast : UserInputAst} {clauses : List (Option Occur × UserInputAst)}

theorem Passed.isTerm (h : Passed schema ast negated false screen screen') {e : Bool × UserInputLeaf}
    (he : e ∈ ast.leaves negated) :
    schema.IsTerm e.2 := by
  grind [h.leaf e he]

theorem nodes_passed (ih : ∀ c ∈ clauses, ∀ {screen screen' : Screen} {negated required : Bool},
      screen.node schema c.2 negated required = .ok screen' → Passed schema c.2 negated required screen screen')
    (h : screen.nodes schema clauses negated = .ok screen') :
    (∀ e ∈ clauseLeaves negated clauses, schema.IsTerm e.2) ∧ screen.found ⊆ screen'.found ∧
      (screen'.positive = screen.positive ∨ ∃ l, (false, l) ∈ clauseLeaves negated clauses) := by
  induction clauses generalizing screen with
  | nil =>
    rw [nodes] at h
    obtain rfl := Except.ok.inj h
    exact ⟨by simp [clauseLeaves], List.Subset.refl _, Or.inl rfl⟩
  | cons c rest ihRest =>
    rw [nodes] at h
    split at h
    · cases h
    · next between hc =>
      have hfirst := ih c (mem_cons_self ..) hc
      obtain ⟨hterms, hfound, hpositive⟩ := ihRest (fun c hc => ih c (mem_cons_of_mem _ hc)) h
      have hpositive' := hfirst.positive
      refine ⟨?_, List.Subset.trans hfirst.found hfound, ?_⟩ <;> simp only [clauseLeaves, mem_append]
      · rintro e (he | he)
        · exact hfirst.isTerm he
        · exact hterms e he
      · grind

theorem node_passed (h : screen.node schema ast negated required = .ok screen') :
    Passed schema ast negated required screen screen' := by
  induction ast using induction generalizing negated required screen screen' with
  | clause clauses ih =>
    rw [node] at h
    obtain ⟨hterms, hfound, hpositive⟩ := nodes_passed ih h
    rw [← BooleanQuery.leaves] at hterms hpositive
    exact ⟨fun e he => Or.inl (hterms e he), hfound, hpositive⟩
  | boost q ih =>
    rw [node] at h
    have hq := ih h
    refine ⟨fun e he => ?_, hq.found, by simpa using hq.positive⟩
    rcases hq.leaf e (by simpa using he) with hterm | ⟨hneg, hreq, hrequires, hchecked⟩
    · exact Or.inl hterm
    · exact Or.inr ⟨hneg, hreq, hrequires.boost, hchecked⟩
  | leaf l =>
    rw [node] at h
    split at h
    · cases h
    · next between hl =>
      obtain rfl := Except.ok.inj h
      have hfound : (if negated then between else { between with positive := between.positive + 1 }).found =
          between.found := by
        cases negated <;> rfl
      refine ⟨?_, ?_, ?_⟩
      · intro e he
        obtain rfl : e = (negated, l) := by simpa using he
        rcases screenLeaf_ok hl with ⟨hterm, -⟩ | ⟨hneg, hreq, hchecked, -⟩
        · exact Or.inl hterm
        · exact Or.inr ⟨hneg, hreq, requires_leaf l, by rwa [hfound]⟩
      · rw [hfound]
        rcases screenLeaf_ok hl with ⟨-, rfl⟩ | ⟨-, -, -, hsub, -⟩
        · exact List.Subset.refl _
        · exact hsub
      · cases negated with
        | false => exact Or.inr ⟨l, by simp⟩
        | true =>
          rcases screenLeaf_ok hl with ⟨-, rfl⟩ | ⟨-, -, -, -, hpos⟩
          · exact Or.inl rfl
          · exact Or.inl hpos

theorem outer_passed {alone : Bool} (h : outer schema alone screen clauses = .ok screen') :
    (∀ c ∈ clauses, ∀ e ∈ c.2.leaves (c.1 = some .mustNot), schema.IsTerm e.2 ∨
      (e.1 = false ∧ (c.1 = some .must ∨ alone = true) ∧ c.2.Requires e.2 ∧ schema.Checked screen'.found e.2)) ∧
    screen.found ⊆ screen'.found ∧
    (screen'.positive = screen.positive ∨ ∃ c ∈ clauses, ∃ l, (false, l) ∈ c.2.leaves (c.1 = some .mustNot)) := by
  induction clauses generalizing screen with
  | nil =>
    rw [outer] at h
    obtain rfl := Except.ok.inj h
    exact ⟨by simp, List.Subset.refl _, Or.inl rfl⟩
  | cons c rest ih =>
    rw [outer] at h
    split at h
    · cases h
    · next between hc =>
      have hfirst := node_passed hc
      obtain ⟨hleaves, hfound, hpositive⟩ := ih h
      refine ⟨?_, List.Subset.trans hfirst.found hfound, ?_⟩
      · intro c' hmem e he
        rcases mem_cons.mp hmem with rfl | hmem
        · rcases hfirst.leaf e he with hterm | ⟨hneg, hreq, hrequires, hchecked⟩
          · exact Or.inl hterm
          · refine Or.inr ⟨hneg, ?_, hrequires, hchecked.mono hfound⟩
            simp only [Bool.and_eq_true, Bool.or_eq_true, decide_eq_true_eq] at hreq
            exact hreq.2
        · exact hleaves c' hmem e he
      · have hpositive' := hfirst.positive
        grind

end Screen

section Accepted
variable {schema : IndexSchema} {ast : UserInputAst} {exact : List ExactText}

theorem leaves_unboost (ast : UserInputAst) (negated : Bool) : (unboost ast).leaves negated = ast.leaves negated := by
  induction ast using induction with
  | clause clauses ih => rw [unboost]; nofun
  | boost q ih => rw [unboost, ih, leaves_boost]
  | leaf l => rw [unboost]; nofun

theorem requires_of_unboost {l : UserInputLeaf} (h : (unboost ast).Requires l) : ast.Requires l := by
  induction ast using induction with
  | clause clauses ih => rwa [unboost] at h; nofun
  | boost q ih =>
    rw [unboost] at h
    exact (ih h).boost
  | leaf l' => rwa [unboost] at h; nofun

/-- An accepted query has a clause that is not negated, and each of its clauses is matched exactly by the index or
    is a text clause that every selected document has to satisfy, and is on the list of those to check. -/
theorem screenQuery_accepts (h : screenQuery schema ast = .ok exact) :
    (∃ l, (false, l) ∈ ast.leaves false) ∧
    ∀ e ∈ ast.leaves false, schema.IsTerm e.2 ∨ (e.1 = false ∧ ast.Requires e.2 ∧ schema.Checked exact e.2) := by
  rw [← leaves_unboost ast]
  suffices key : (∃ l, (false, l) ∈ (unboost ast).leaves false) ∧ ∀ e ∈ (unboost ast).leaves false,
      schema.IsTerm e.2 ∨ (e.1 = false ∧ (unboost ast).Requires e.2 ∧ schema.Checked exact e.2) by
    refine ⟨key.1, fun e he => ?_⟩
    rcases key.2 e he with hterm | ⟨hneg, hrequires, hchecked⟩
    · exact Or.inl hterm
    · exact Or.inr ⟨hneg, requires_of_unboost hrequires, hchecked⟩
  unfold screenQuery at h
  dsimp only at h
  generalize unboost ast = top at h ⊢
  split at h
  · cases h
  · next screen hscreen =>
    split at h
    · cases h
    · next hpos =>
      obtain rfl := Except.ok.inj h
      split at hscreen
      · next clauses =>
        obtain ⟨hleaves, -, hpositive⟩ := Screen.outer_passed hscreen
        constructor
        · rcases hpositive with hsame | ⟨c, hc, l, hl⟩
          · exact absurd hsame hpos
          · exact ⟨l, mem_leaves_clause.mpr ⟨c, hc, by simpa using hl⟩⟩
        · intro e he
          obtain ⟨⟨occur, q⟩, hc, he⟩ := mem_leaves_clause.mp he
          rcases hleaves _ hc e (by simpa using he) with hterm | ⟨hneg, hreq, hrequires, hchecked⟩
          · exact Or.inl hterm
          · refine Or.inr ⟨hneg, ?_, hchecked⟩
            rcases hreq with rfl | halone
            · exact hrequires.of_must hc
            · obtain ⟨c, rfl⟩ := length_eq_one_iff.mp (of_decide_eq_true halone)
              obtain rfl := mem_singleton.mp hc
              exact hrequires.alone
      · have hpassed := Screen.node_passed hscreen
        refine ⟨hpassed.positive.resolve_left hpos, fun e he => ?_⟩
        rcases hpassed.leaf e he with hterm | ⟨hneg, -, hrequires, hchecked⟩
        · exact Or.inl hterm
        · exact Or.inr ⟨hneg, hrequires, hchecked⟩

end Accepted

/-! ### The values of a row in its document -/

namespace SchemaFields
variable {p : Parsers} {fields : SchemaFields} {schema : IndexSchema}

theorem mem_collect {α : Type} {f : α → Except StoreError (List (String × TantivyValue))} {as : List α}
    {vs : List (String × TantivyValue)} (h : collect f as = .ok vs) (v : String × TantivyValue) :
    v ∈ vs ↔ ∃ a ∈ as, ∃ us, f a = .ok us ∧ v ∈ us := by
  induction as generalizing vs with
  | nil =>
    obtain rfl : [] = vs := Except.ok.inj h
    simp
  | cons a rest ih =>
    unfold collect at h
    cases hf : f a <;> cases hrest : collect f rest <;> grind [Except.map]

variable {name : String} {defn : FieldDef} {column : Column} {us : List (String × TantivyValue)}
  {e : String × TantivyValue}
  {bad : BadValue}

theorem writeType_of_kind (hcolumn : fields.columns[name]? = some column) (hkind : column.kind = defn.column.kind) :
    fields.writeType name defn.fieldType = defn.fieldType := by
  rw [writeType, hcolumn]
  show writableType defn.fieldType column.kind = defn.fieldType
  rw [hkind, FieldDef.column]
  cases defn.fieldType <;> rfl

theorem memberValues_eq (hdefn : schema.indexedFields[name]? = some defn)
    (hplain : (defn.isShadow || defn.isGhost) = false)
    (hcolumn : fields.columns[name]? = some column) (hkind : column.kind = defn.column.kind) (value : JsonValue) :
    fields.memberValues p schema .skipAndWarn name value =
      .ok ((storedValues p name defn.fieldType value).map fun v => (name, v)) := by
  have hcontains : fields.columns.contains name = true := by
    rw [ExtTreeMap.contains_eq_isSome_getElem?, hcolumn]
    rfl
  obtain ⟨vs, hvs⟩ : ∃ vs, addJsonValueToDoc p name defn.fieldType value .skipAndWarn = .ok vs :=
    addJsonValueToDoc_skip value
  simp only [memberValues, hdefn, hplain, hcontains, writeType_of_kind hcolumn hkind, storedValues, hvs, Except.map,
    Bool.false_eq_true, ↓reduceIte]

theorem fst_of_named {x : Except StoreError (List TantivyValue)}
    (h : x.map (·.map fun v => (name, v)) = .ok us) (he : e ∈ us) : e.1 = name := by
  cases x with
  | error e => cases h
  | ok vs =>
    obtain rfl : vs.map (fun v => (name, v)) = us := Except.ok.inj h
    obtain ⟨v, -, rfl⟩ := mem_map.mp he
    rfl

theorem memberValues_fst {value : JsonValue} (h : fields.memberValues p schema bad name value = .ok us) (he : e ∈ us) :
    e.1 = name := by
  unfold memberValues at h
  have hnamed x := @fst_of_named name us e x
  grind

theorem ghostValues_fst {body : List (String × JsonValue)} {field : FieldDef}
    (h : fields.ghostValues p body bad name field = .ok us) (he : e ∈ us) : e.1 = name ∧ field.isGhost = true := by
  unfold ghostValues at h
  have hnamed x := @fst_of_named name us e x
  grind [FieldDef.isGhost]

theorem mem_rowValues {body : Option JsonValue} {v : TantivyValue} (hdefn : schema.indexedFields[name]? = some defn)
    (hplain : (defn.isShadow || defn.isGhost) = false) (hcolumn : fields.columns[name]? = some column)
    (hkind : column.kind = defn.column.kind) :
    (name, v) ∈ fields.rowValues p schema.indexedFields body ↔
      ∃ m ∈ (body.bind JsonValue.asObject).getD [], m.1 = name ∧ v ∈ storedValues p name defn.fieldType m.2 := by
  let bare : IndexSchema := { default with fields := schema.indexedFields }
  have hbare : bare.indexedFields = schema.indexedFields := indexedFields_default schema
  obtain ⟨vs, hvs⟩ : ∃ vs, fields.bodyValues p bare body .skipAndWarn = .ok vs := bodyValues_skip body
  have hrow : fields.rowValues p schema.indexedFields body = vs := by
    unfold rowValues
    rw [hvs]
  rw [hrow]
  unfold bodyValues at hvs
  cases hbody : body.bind JsonValue.asObject with
  | none =>
    rw [hbody] at hvs
    obtain rfl : [] = vs := Except.ok.inj hvs
    simp
  | some members =>
    simp only [hbody] at hvs
    cases hown : collect (fun m => fields.memberValues p bare .skipAndWarn m.1 m.2) members with
    | error e => simp [hown] at hvs
    | ok own =>
      cases hghosts : collect (fun f => fields.ghostValues p members .skipAndWarn f.1 f.2)
        bare.indexedFields.toList with
      | error e => simp [hown, hghosts, Except.map] at hvs
      | ok ghosts =>
        obtain rfl : own ++ ghosts = vs := by simpa [hown, hghosts, Except.map] using hvs
        have hnoGhost : (name, v) ∉ ghosts := by
          intro hmem
          obtain ⟨f, hf, us, hus, hv⟩ := (mem_collect hghosts _).mp hmem
          obtain ⟨hname, hghost⟩ := ghostValues_fst hus hv
          rw [hbare, ExtTreeMap.mem_toList_iff_getElem?_eq_some, ← hname, hdefn] at hf
          obtain rfl := Option.some.inj hf
          simp [hghost] at hplain
        rw [mem_append, mem_collect hown, or_iff_left hnoGhost]
        have hmember : ∀ value, fields.memberValues p bare .skipAndWarn name value =
            .ok ((storedValues p name defn.fieldType value).map fun v => (name, v)) :=
          memberValues_eq (by rwa [hbare]) hplain hcolumn hkind
        constructor
        · rintro ⟨m, hm, us, hus, hv⟩
          obtain rfl : name = m.1 := memberValues_fst hus hv
          rw [hmember, Except.ok.injEq] at hus
          rw [← hus] at hv
          exact ⟨m, hm, rfl, by simpa using hv⟩
        · rintro ⟨m, hm, rfl, hv⟩
          exact ⟨m, hm, _, hmember m.2, mem_map_of_mem hv⟩

end SchemaFields

/-! ### The index and the rows -/

section Leaves
variable {q : QueryEnv} {p : Parsers} {schema : IndexSchema} {fields : SchemaFields} {id : String} {seq : Nat}
  {body : Option JsonValue} {leaf : UserInputLeaf} {name : String}

theorem IndexSchema.deleteKind_key (h : schema.deleteKind name = .ok .key) :
    name = "id" ∨ schema.isShadowField name = true := by
  unfold deleteKind at h
  grind

theorem IndexSchema.deleteKind_exact (h : schema.deleteKind name = .ok .exact) :
    name ≠ "id" ∧ ∃ defn, schema.fields[name]? = some defn ∧ defn.indexed = true ∧
    (defn.isShadow || defn.isGhost) = false ∧ ∀ column : Column, column.kind = defn.column.kind →
      (defn.fieldType = .string → column.analysis.map Prod.fst = some "raw") → column.termExact = true := by
  unfold deleteKind at h
  cases hdefn : schema.fields[name]? with
  | none => grind
  | some defn =>
  rw [hdefn] at h
  have hshadow : defn.isShadow = false := by grind [isShadowField]
  refine ⟨by grind, defn, rfl, by grind, by grind, fun column hkind hraw => ?_⟩
  rw [FieldDef.column] at hkind
  rw [Column.termExact]
  cases hty : defn.fieldType <;> grind

theorem leafHit_eq_clauseHolds (hagree : fields.Agrees schema) (hterm : schema.IsTerm leaf)
    (hresolved : ∀ name, leaf.field? = some name → name = "id" ∨ name ∈ fields.columns) :
    q.leafHit fields (fields.rowDocument p schema.indexedFields id seq body) leaf =
    schema.clauseHolds q p id body leaf := by
  unfold QueryEnv.leafHit clauseHolds
  cases hfield : leaf.field? with
  | none => rfl
  | some name =>
    dsimp only
    rcases hterm name hfield with hkind | hkind
    · rcases deleteKind_key hkind with rfl | hshadow
      · rw [hkind, if_pos rfl]
        rfl
      · -- A shadow field has no column, so a clause on one is read as a clause on `id`.
        rcases hresolved name hfield with rfl | hmem
        · rw [hkind, if_pos rfl]
          rfl
        · unfold isShadowField at hshadow
          cases hdefn : schema.fields[name]? with
          | none => simp [hdefn] at hshadow
          | some defn =>
            rw [hdefn] at hshadow
            exact absurd hmem (hagree.shadow name defn hdefn hshadow)
    · obtain ⟨hid, defn, hdefn, hindexed, hplain, hexact⟩ := deleteKind_exact hkind
      have hmem : name ∈ fields.columns := (hresolved name hfield).resolve_left hid
      obtain ⟨column, hcolumn⟩ : ∃ column, fields.columns[name]? = some column :=
        ⟨_, ExtTreeMap.getElem?_eq_some_getElem hmem⟩
      have hsame := hagree.kind name defn column hdefn hindexed hcolumn
      have hterms : column.termExact = true := hexact column hsame fun hs =>
        hagree.raw name defn column hdefn hs hcolumn
      have hind : schema.indexedFields[name]? = some defn := by
        rw [indexedFields, ExtTreeMap.getElem?_filter', hdefn]
        simp [Option.filter, hindexed]
      rw [if_neg hid, hkind, hcolumn, hdefn]
      dsimp only
      rw [if_pos hterms, hsame, Bool.eq_iff_iff]
      simp only [SchemaFields.rowDocument, any_eq_true, Bool.and_eq_true, decide_eq_true_eq]
      constructor
      · rintro ⟨⟨k, v⟩, hv, rfl, hhit⟩
        obtain ⟨m, hm, hname, hv⟩ := (SchemaFields.mem_rowValues hind hplain hcolumn hsame).mp hv
        exact ⟨m, hm, hname, v, hv, hhit⟩
      · rintro ⟨m, hm, hname, v, hv, hhit⟩
        exact ⟨(name, v), (SchemaFields.mem_rowValues hind hplain hcolumn hsame).mpr ⟨m, hm, hname, hv⟩, rfl, hhit⟩

theorem IndexSchema.Checked.clauseHolds {exact : List ExactText} (h : schema.Checked exact leaf)
    (hall : exact.all (holdsExactly (body.getD .null)) = true) : schema.clauseHolds q p id body leaf = true := by
  obtain ⟨l, name, rfl, hname, hkind, hmem⟩ := h
  unfold clauseHolds
  rw [UserInputLeaf.field?, hname]
  dsimp only
  rw [hkind]
  exact all_eq_true.mp hall _ hmem

end Leaves

theorem mem_keepExact {data : DataTable} {exact : List ExactText}
    {ids : List String} {id : String} (h : id ∈ (keepExact data exact ids).ids) :
    id ∈ ids ∧ ∃ body : Option JsonValue, data[id]? = some body ∧ exact.all
    (holdsExactly (body.getD .null)) = true := by
  induction ids with
  | nil => cases h
  | cons first rest ih =>
    unfold keepExact at h
    grind

/-! ### A delete -/

section Delete
variable {q : QueryEnv} {p : Parsers} {query : String} {s : Store} {index : TantivyIndex} {schema : IndexSchema}

/-- What a run of the search hands back came through the screen with nothing dropped: every id is of a document the
    query matches in the index, and where there are text clauses its row equals each of them. -/
theorem wp_deleteQueryMatches (hdir : s.dir = .built index) (hschema : s.schemaRead = some schema) :
    wp (deleteQueryMatches q query)
      (.returning fun r _ => ∀ found, r = .ok found →
      ∃ prepared exact, q.prepare index.fields schema query = .ok prepared ∧
          screenQuery schema prepared.ast = .ok exact ∧ prepared.discarded = [] ∧
          ∀ id ∈ found.ids, (∃ doc ∈ index.docs, doc.id = id ∧ prepared.ast.selects
          (q.leafHit index.fields doc) = true) ∧
            (exact = [] ∨ ∃ body : Option JsonValue, s.tables.data[id]? = some body ∧ exact.all
            (holdsExactly (body.getD .null)) = true)) s := by
  refine wp_gets_bind ?_
  rw [hdir]
  refine wp_step_bind ?_ trivial trivial
  refine wp_bind (wp_getSchemaCached_frame ?_ (fun _ => trivial) trivial)
  rw [hschema]
  dsimp only [Option.getD_some]
  cases hprepare : q.prepare index.fields schema query with
  | error e => exact wp_pure nofun
  | ok prepared =>
    dsimp only
    cases hscreen : screenQuery schema prepared.ast with
    | error e => exact wp_pure nofun
    | ok exact =>
      dsimp only
      split
      · exact wp_pure nofun
      · next hnone =>
        have candidate : ∀ id ∈ (index.docs.filter fun doc => prepared.ast.selects (q.leafHit index.fields doc)).map
            TantivyDocument.id, ∃ doc ∈ index.docs, doc.id = id ∧
              prepared.ast.selects (q.leafHit index.fields doc) = true := by
          intro id hid
          obtain ⟨doc, hdoc, hid⟩ := mem_map.mp hid
          obtain ⟨hmem, hsel⟩ := mem_filter.mp hdoc
          exact ⟨doc, hmem, hid, hsel⟩
        refine wp_step_bind ?_ trivial trivial
        split
        · next hempty =>
          refine wp_pure fun found hfound => ⟨prepared, exact, rfl, hscreen, not_not.mp hnone, fun id hid => ?_⟩
          obtain rfl := Except.ok.inj hfound
          exact ⟨candidate id hid, Or.inl (isEmpty_iff.mp hempty)⟩
        · refine wp_bind (wp_beginRead ?_ trivial trivial)
          refine wp_pure fun found hfound => ⟨prepared, exact, rfl, hscreen, not_not.mp hnone, fun id hid => ?_⟩
          obtain rfl := Except.ok.inj hfound
          obtain ⟨hmem, hrow⟩ := mem_keepExact hid
          exact ⟨candidate id hmem, Or.inr hrow⟩

theorem Reflects.row_of_mem {indexed : FieldMap} {t : Tables} {doc : TantivyDocument}
    (h : Reflects p False index.fields indexed index.docs t doc.id) (hmem : doc ∈ index.docs) :
    ∃ body seq, t.data[doc.id]? = some body ∧ doc = index.fields.rowDocument p indexed doc.id seq body := by
  have hunder : doc ∈ Edit.under TantivyDocument.id index.docs doc.id := mem_filter.mpr ⟨hmem, by simp⟩
  unfold Reflects at h
  split at h
  · rw [h] at hunder
    cases hunder
  · next body hbody =>
    obtain ⟨seq, used, hused, hdocs⟩ := h
    rw [hdocs, mem_singleton, hused.resolve_left id] at hunder
    exact ⟨body, seq, hbody, hunder⟩

/-- On an index whose columns have the declared types and whose commit holds exactly the rows, a delete by query
    hands back only ids of rows that satisfy the query with text read as equality. The query has a clause that is
    not negated, so nothing is selected by exclusion alone, and every text clause in it is one that whatever is
    selected has to satisfy. -/
theorem delete_query_exact {fates rest : List Fate} {s' : Store} {found : DeleteMatches} (hdir : s.dir = .built index)
    (hschema : s.schemaRead = some schema) (hagree : index.fields.Agrees schema)
    (hrows : ∀ id, Reflects p False index.fields schema.indexedFields index.docs s.tables id)
    (h : deleteQueryMatches q query fates s = ⟨.ok (.ok found), rest, s'⟩) :
    ∃ prepared, q.prepare index.fields schema query = .ok prepared ∧
      (∀ id ∈ found.ids, ∃ body, s.tables.data[id]? = some body ∧
        prepared.ast.selects (schema.clauseHolds q p id body) = true ∧
        ∃ leaf, (false, leaf) ∈ prepared.ast.leaves false ∧ schema.clauseHolds q p id body leaf = true) ∧
      (∃ leaf, (false, leaf) ∈ prepared.ast.leaves false) ∧
      ∀ e ∈ prepared.ast.leaves false, schema.IsText e.2 → e.1 = false ∧ prepared.ast.Requires e.2 := by
  obtain ⟨prepared, exact, hprepare, hscreen, hnone, hids⟩ := (wp_deleteQueryMatches hdir hschema).of_ok h found rfl
  obtain ⟨hpositive, hleaves⟩ := screenQuery_accepts hscreen
  refine ⟨prepared, hprepare, ?_, hpositive, ?_⟩
  · intro id hid
    obtain ⟨⟨doc, hdoc, rfl, hsel⟩, hchecked⟩ := hids id hid
    obtain ⟨body, seq, hbody, hrow⟩ := (hrows doc.id).row_of_mem hdoc
    have hall : exact.all (holdsExactly (body.getD .null)) = true := by
      rcases hchecked with rfl | ⟨body', hbody', hall⟩
      · rfl
      · obtain rfl : body' = body := Option.some.inj (hbody'.symm.trans hbody)
        exact hall
    have term : ∀ e ∈ prepared.ast.leaves false, schema.IsTerm e.2 →
        q.leafHit index.fields doc e.2 = schema.clauseHolds q p doc.id body e.2 := by
      intro e he hterm
      rw [hrow]
      exact leafHit_eq_clauseHolds hagree hterm (prepared.resolved hnone e he)
    have hholds : prepared.ast.selects (schema.clauseHolds q p doc.id body) = true := by
      refine selects_mono (fun l hl => ?_) (fun l hl hhit => ?_) hsel
      · rcases hleaves _ hl with hterm | ⟨hneg, -⟩
        · exact term _ hl hterm
        · cases hneg
      · rcases hleaves _ hl with hterm | ⟨-, -, htext⟩
        · rw [← term _ hl hterm]
          exact hhit
        · exact htext.clauseHolds hall
    exact ⟨body, hbody, hholds, exists_positive hholds⟩
  · intro e he htext
    rcases hleaves e he with hterm | ⟨hneg, hrequires, -⟩
    · exact absurd htext hterm.not_isText
    · exact ⟨hneg, hrequires⟩

end Delete

/-! A text clause that the index matches in two documents and only one of them has. -/

def acmeSchema : IndexSchema :=
  { default with
    fields := ((∅ : ExtTreeMap String FieldDef).insert "company" (.new "company" .text)).insert "status"
      (.new "status" .string) }

def acmeRow (company : String) : Option JsonValue :=
  some (.object [("company", .string company), ("status", .string "expired")])

def acmeIndex : TantivyIndex :=
  let fields := createSchemaFromDefinition acmeSchema
  let doc := fun id company => fields.rowDocument plainEnv.parsers acmeSchema.indexedFields id 0 (acmeRow company)
  ⟨fields, [doc "a" "Acme Corp", doc "b" "ACME CORP"], none⟩

def acmeStore : Store where
  redb := ⟨[[.schemaInsert acmeSchema, .dataInsert "a" (acmeRow "Acme Corp"),
    .dataInsert "b" (acmeRow "ACME CORP")]], []⟩
  dir := .built acmeIndex
  mem := { Memory.empty with schemaCache := some acmeSchema }

def acmeAst : UserInputAst :=
  .clause [(some .must, .leaf (.literal ⟨some "company", "Acme Corp", .doubleQuotes, 0, false⟩)),
    (some .must, .leaf (.literal ⟨some "status", "expired", .none, 0, false⟩))]

def acmeQuery : QueryEnv where
  prepare fields _ _ :=
    if h : "company" ∈ fields.columns ∧ "status" ∈ fields.columns then
      .ok ⟨acmeAst, [], fun _ e he name hname => by
        simp only [acmeAst, BooleanQuery.leaves, clauseLeaves, append_nil, mem_append, mem_singleton] at he
        rcases he with rfl | rfl <;> cases hname
        · exact Or.inr h.1
        · exact Or.inr h.2⟩
    else .error (.syntaxError "unknown field")
  ofValue _ leaf value := match leaf with
    | .literal l => value = .str l.phrase
    | _ => false
  ofText _ _ _ := true

theorem acmeStore_reflects (id : String) :
    Reflects plainEnv.parsers False acmeIndex.fields acmeSchema.indexedFields acmeIndex.docs acmeStore.tables id := by
  have hdata : acmeStore.tables.data[id]? =
      if "b" = id then some (acmeRow "ACME CORP") else if "a" = id then some (acmeRow "Acme Corp") else none := by
    have : acmeStore.tables.data =
        ((∅ : ExtTreeMap String (Option JsonValue)).insert "a" (acmeRow "Acme Corp")).insert "b"
          (acmeRow "ACME CORP") := rfl
    simp [this, ExtTreeMap.getElem?_insert]
  unfold Reflects
  rw [hdata]
  by_cases hb : "b" = id
  · subst hb
    exact ⟨0, acmeSchema.indexedFields, Or.inr rfl, by decide +kernel⟩
  by_cases ha : "a" = id
  · subst ha
    exact ⟨0, acmeSchema.indexedFields, Or.inr rfl, by decide +kernel⟩
  · simp [acmeIndex, Edit.under, SchemaFields.rowDocument, ha, hb]

theorem acmeIndex_agrees : acmeIndex.fields.Agrees acmeSchema := by
  have hcolumns : ∀ (name : String) (defn : FieldDef), acmeSchema.fields[name]? = some defn →
      defn.isShadow = false ∧ acmeIndex.fields.columns[name]? = some defn.column ∧
        (defn.fieldType = .string → defn.column.analysis.map Prod.fst = some "raw") := by
    intro name defn hdefn
    simp only [acmeSchema, ExtTreeMap.getElem?_insert, Std.compare_eq_iff_eq] at hdefn
    by_cases hs : "status" = name
    · subst hs
      obtain rfl : FieldDef.new "status" .string = defn := by simpa using hdefn
      exact ⟨rfl, by decide +kernel, fun _ => rfl⟩
    by_cases hc : "company" = name
    · subst hc
      obtain rfl : FieldDef.new "company" .text = defn := by simpa using hdefn
      exact ⟨rfl, by decide +kernel, nofun⟩
    · simp [hs, hc] at hdefn
  refine ⟨?_, ?_, ?_⟩ <;> grind

theorem delete_query_exact_acme :
    (deleteQueryMatches acmeQuery "" [] acmeStore).outcome = .ok (.ok ⟨["a"], 1⟩) ∧
      ∃ prepared, acmeQuery.prepare acmeIndex.fields acmeSchema "" = .ok prepared ∧
        ∃ body, acmeStore.tables.data["a"]? = some body ∧
          prepared.ast.selects (acmeSchema.clauseHolds acmeQuery plainEnv.parsers "a" body) = true := by
  have hrun : (deleteQueryMatches acmeQuery "" [] acmeStore).outcome = .ok (.ok ⟨["a"], 1⟩) := by decide +kernel
  rcases hresult : deleteQueryMatches acmeQuery "" [] acmeStore with ⟨outcome, rest, s'⟩
  rw [hresult] at hrun
  dsimp only at hrun
  rw [hrun] at hresult
  obtain ⟨prepared, hprepare, hids, -⟩ := delete_query_exact rfl rfl acmeIndex_agrees acmeStore_reflects hresult
  obtain ⟨body, hbody, hholds, -⟩ := hids "a" (mem_singleton_self _)
  exact ⟨hrun, prepared, hprepare, body, hbody, hholds⟩

end CameoDb
