import CameoDb.Storage.Dates

/-! # Dates as text: what comes back

The year and month are cut out of seven bytes with a dash as the fifth character, and a wider character moves the
cut inside it. -/

namespace CameoDb
open List

section Dates
variable {lib : DateLib}

/-- The reading comes back, and a date it comes back with is clamped to what the index holds. -/
def Reads (form : Option (Option (ReadDate lib))) : Prop :=
  ∃ found, form = some found ∧ ∀ date ∈ found, date.2.2 = epochSecondsToTantivy date.2.1 ∧
    tantivyMinTimestampSecs ≤ date.2.2 ∧ date.2.2 ≤ tantivyMaxTimestampSecs

/-- The cut of a `YYYY-MM` text falls between characters. -/
def CutsBetween (lib : DateLib) (s : String) : Prop :=
  lib.rfc3339 s = none → lib.rfc2822 s = none → parseNaiveDatetime lib s = none → byteLength s.toList = 7 →
    s.toList[4]? = some '-' → IsBoundary s.toList 4 ∧ IsBoundary s.toList 5

theorem epochSecondsToTantivy_bounds (secs : Int) :
    tantivyMinTimestampSecs ≤ epochSecondsToTantivy secs ∧ epochSecondsToTantivy secs ≤ tantivyMaxTimestampSecs := by
  unfold epochSecondsToTantivy tantivyMinTimestampSecs tantivyMaxTimestampSecs
  omega

theorem stampSecs_eq (secs : Int) : ∃ date, stampSecs lib secs = some (date, secs, epochSecondsToTantivy secs) := by
  have hbounds := epochSecondsToTantivy_bounds secs
  unfold tantivyMinTimestampSecs tantivyMaxTimestampSecs at hbounds
  obtain ⟨date, hdate⟩ := Option.isSome_iff_exists.mp
    (lib.fromTimestampSecs_isSome (epochSecondsToTantivy secs) (by omega) (by omega))
  exact ⟨date, by rw [stampSecs, hdate]; rfl⟩

theorem reads_none : Reads (some none : Option (Option (ReadDate lib))) := ⟨none, rfl, fun _ h => nomatch h⟩

theorem stampFound_reads (found : Option Int) : Reads (stampFound lib found) := by
  cases found with
  | none => exact reads_none
  | some secs =>
    obtain ⟨date, hdate⟩ := @stampSecs_eq lib secs
    refine ⟨some (date, secs, epochSecondsToTantivy secs), by rw [stampFound, hdate]; rfl, ?_⟩
    rintro _ ⟨⟩
    exact ⟨rfl, epochSecondsToTantivy_bounds secs⟩

theorem stampFound_eq_none {found : Option Int} : stampFound lib found = some none ↔ found = none := by
  cases found with
  | none => exact iff_of_true rfl rfl
  | some secs =>
    obtain ⟨date, hdate⟩ := @stampSecs_eq lib secs
    rw [stampFound, hdate]
    exact iff_of_false nofun nofun

theorem firstForm_cons_reads {form : Option (Option (ReadDate lib))}
    {rest : List (Option (Option (ReadDate lib)))} (h : Reads form) :
    Reads (firstForm (form :: rest)) ↔ (form = some none → Reads (firstForm rest)) := by
  obtain ⟨found, rfl, hfound⟩ := h
  cases found with
  | none => exact ⟨fun h _ => h, fun h => h rfl⟩
  | some date => exact iff_of_true ⟨some date, rfl, hfound⟩ nofun

theorem firstForm_reads {forms : List (Option (Option (ReadDate lib)))}
    (hforms : ∀ form ∈ forms, form.isSome → Reads form)
    (h : (firstForm forms).isSome) : Reads (firstForm forms) := by
  induction forms with
  | nil => exact reads_none
  | cons form rest ih =>
    cases form with
    | none => cases h
    | some found =>
      rw [firstForm_cons_reads (hforms _ mem_cons_self rfl)]
      rintro ⟨⟩
      exact ih (fun form hform => hforms form (mem_cons_of_mem _ hform)) h

/-! ### The forms cut by hand -/

theorem bind_reads {α : Type} {x : Option α} {f : α → Option (Option (ReadDate lib))} (hx : x.isSome)
    (hf : ∀ a, Reads (f a)) : Reads (x >>= f) := by
  obtain ⟨a, rfl⟩ := Option.isSome_iff_exists.mp hx
  exact hf a

theorem utf8Size_of_isDigit {c : Char} (h : c.isDigit = true) : c.utf8Size = 1 := by
  rw [Char.utf8Size_eq_one_iff]
  simp only [Char.isDigit, Bool.and_eq_true, decide_eq_true_eq, UInt32.le_iff_toNat_le] at h
  rw [UInt32.le_iff_toNat_le]
  exact h.2.trans (by decide)

section Digits
variable {text : List Char} {size start stop : Nat}

theorem slice_isSome_of_digits (h : (byteLength text = size && text.all Char.isDigit) = true) (hle : start ≤ stop)
    (hstop : stop ≤ size) : (slice text start stop).isSome := by
  simp only [Bool.and_eq_true, decide_eq_true_eq, all_eq_true] at h
  exact slice_isSome_of_ascii (fun c hc => utf8Size_of_isDigit (h.2 c hc)) hle (by omega)

/-- The year, month, day, hour and minute are cut between digits. -/
theorem minutes_reads {f : List Char → List Char → List Char → List Char → List Char → Option (Option (ReadDate lib))}
    (h : (byteLength text = size && text.all Char.isDigit) = true) (hsize : 12 ≤ size)
    (hf : ∀ year month day hour min, Reads (f year month day hour min)) :
    Reads (do
      let year ← slice text 0 4
      let month ← slice text 4 6
      let day ← slice text 6 8
      let hour ← slice text 8 10
      let min ← slice text 10 12
      f year month day hour min) := by
  refine bind_reads (slice_isSome_of_digits h (by decide) (by omega)) fun _ => ?_
  refine bind_reads (slice_isSome_of_digits h (by decide) (by omega)) fun _ => ?_
  refine bind_reads (slice_isSome_of_digits h (by decide) (by omega)) fun _ => ?_
  refine bind_reads (slice_isSome_of_digits h (by decide) (by omega)) fun _ => ?_
  refine bind_reads (slice_isSome_of_digits h (by decide) (by omega)) fun _ => ?_
  exact hf _ _ _ _ _

theorem compactSeconds_reads (text : List Char) : Reads (compactSeconds lib text) := by
  unfold compactSeconds
  split
  · next h =>
    refine minutes_reads h (by decide) fun _ _ _ _ _ => ?_
    exact bind_reads (slice_isSome_of_digits h (by decide) (by decide)) fun _ => stampFound_reads _
  · exact reads_none

theorem compactMinutes_reads (text : List Char) : Reads (compactMinutes lib text) := by
  unfold compactMinutes
  split
  · next h => exact minutes_reads h (by decide) fun _ _ _ _ _ => stampFound_reads _
  · exact reads_none

end Digits

theorem epochSeconds_reads (text : List Char) : Reads (epochSeconds lib text) := by
  unfold epochSeconds
  split
  · exact stampFound_reads _
  · exact reads_none

theorem yearOnly_reads (text : List Char) : Reads (yearOnly lib text) := by
  unfold yearOnly
  split
  · exact stampFound_reads _
  · exact reads_none

section YearMonth
variable {text : List Char} {found : Option (ReadDate lib)}

theorem slice_year : (slice text 0 4).isSome ↔ IsBoundary text 4 := by
  rw [slice_isSome_iff]
  exact ⟨fun h => h.2.2, fun h => ⟨by decide, ⟨[], text, rfl, rfl⟩, h⟩⟩

theorem slice_month (hlength : byteLength text = 7) : (slice text 5 7).isSome ↔ IsBoundary text 5 := by
  rw [slice_isSome_iff]
  exact ⟨fun h => h.2.1, fun h => ⟨by decide, h, text, [], by simp, hlength⟩⟩

theorem yearMonth_boundary (h : yearMonth lib text = some found) (hlength : byteLength text = 7)
    (hdash : text[4]? = some '-') : IsBoundary text 4 ∧ IsBoundary text 5 := by
  rw [yearMonth, if_pos (by simp [hlength, hdash])] at h
  obtain ⟨year, hyear, h⟩ := Option.bind_eq_some_iff.mp h
  obtain ⟨month, hmonth, -⟩ := Option.bind_eq_some_iff.mp h
  exact ⟨slice_year.mp (Option.isSome_iff_exists.mpr ⟨year, hyear⟩),
    (slice_month hlength).mp (Option.isSome_iff_exists.mpr ⟨month, hmonth⟩)⟩

theorem yearMonth_reads (h : byteLength text = 7 → text[4]? = some '-' → IsBoundary text 4 ∧ IsBoundary text 5) :
    Reads (yearMonth lib text) := by
  unfold yearMonth
  split
  · next hform =>
    simp only [Bool.and_eq_true, decide_eq_true_eq] at hform
    obtain ⟨hfour, hfive⟩ := h hform.1 hform.2
    refine bind_reads (slice_year.mpr hfour) fun _ => bind_reads ((slice_month hform.1).mpr hfive) fun _ => ?_
    exact stampFound_reads _
  · exact reads_none

end YearMonth

theorem otherForms_of_seven {text : List Char} (h : byteLength text = 7) :
    compactSeconds lib text = some none ∧ compactMinutes lib text = some none ∧ epochSeconds lib text = some none := by
  simp [compactSeconds, compactMinutes, epochSeconds, h]

variable {s : String} {value : JsonValue} {values : List JsonValue}

theorem parseDateStrToTantivy_reads_iff : Reads (parseDateStrToTantivy lib s) ↔ CutsBetween lib s := by
  unfold parseDateStrToTantivy CutsBetween
  rw [firstForm_cons_reads (stampFound_reads _), firstForm_cons_reads (stampFound_reads _),
    stampFound_eq_none, stampFound_eq_none, Option.or_eq_none_iff, Option.map_eq_none_iff, and_imp]
  refine imp_congr_right fun _ => imp_congr_right fun _ => imp_congr_right fun _ => ?_
  rw [firstForm_cons_reads (compactSeconds_reads _), firstForm_cons_reads (compactMinutes_reads _),
    firstForm_cons_reads (epochSeconds_reads _)]
  constructor
  · intro h hlength hdash
    obtain ⟨hseconds, hminutes, hepoch⟩ := @otherForms_of_seven lib _ hlength
    obtain ⟨found, hfound, -⟩ := h hseconds hminutes hepoch
    cases hmonth : yearMonth lib s.toList with
    | none =>
      rw [hmonth] at hfound
      cases hfound
    | some found => exact yearMonth_boundary hmonth hlength hdash
  · intro h _ _ _
    rw [firstForm_cons_reads (yearMonth_reads h), firstForm_cons_reads (yearOnly_reads _)]
    exact fun _ _ => reads_none

theorem parseDateStrToTantivy_reads (h : (parseDateStrToTantivy lib s).isSome) :
    Reads (parseDateStrToTantivy lib s) := by
  refine firstForm_reads (fun form hform hsome => ?_) h
  simp only [mem_cons, not_mem_nil, or_false] at hform
  rcases hform with rfl | rfl | rfl | rfl | rfl | rfl | rfl
  · exact stampFound_reads _
  · exact stampFound_reads _
  · exact compactSeconds_reads _
  · exact compactMinutes_reads _
  · exact epochSeconds_reads _
  · obtain ⟨found, hfound⟩ := Option.isSome_iff_exists.mp hsome
    exact yearMonth_reads (yearMonth_boundary hfound)
  · exact yearOnly_reads _

/-! ### Dates in documents -/

theorem dateValue_reads (h : (dateValue lib value).isSome) : Reads (dateValue lib value) := by
  unfold dateValue at h ⊢
  split at h
  · exact parseDateStrToTantivy_reads h
  · exact stampFound_reads _

theorem dateValue_isSome_iff : (dateValue lib value).isSome ↔ ∀ s, value = .string s → CutsBetween lib s := by
  unfold dateValue
  split
  · next s =>
    constructor
    · rintro h s' ⟨⟩
      exact parseDateStrToTantivy_reads_iff.mp (parseDateStrToTantivy_reads h)
    · intro h
      obtain ⟨found, hfound, -⟩ := parseDateStrToTantivy_reads_iff.mpr (h s rfl)
      rw [hfound]
      rfl
  · next hother =>
    obtain ⟨found, hfound, -⟩ := @stampFound_reads lib (value.asI64.map Int64.toInt)
    rw [hfound]
    exact iff_of_true rfl fun s heq => absurd heq (hother s)

theorem mapM_dateValue :
    ((values.mapM (dateValue lib)).isSome ↔ ∀ value ∈ values, (dateValue lib value).isSome) ∧
      ∀ founds, values.mapM (dateValue lib) = some founds → ∀ found ∈ founds, Reads (some found) := by
  induction values with
  | nil => exact ⟨iff_of_true rfl nofun, by rintro _ ⟨⟩ found hfound; cases hfound⟩
  | cons value rest ih =>
    rw [mapM_cons, forall_mem_cons, ← ih.1]
    cases hvalue : dateValue lib value with
    | none => exact ⟨iff_of_false nofun fun h => (nomatch h.1), nofun⟩
    | some first =>
      cases hrest : rest.mapM (dateValue lib) with
      | none => exact ⟨iff_of_false nofun fun h => (nomatch h.2), nofun⟩
      | some others =>
        refine ⟨iff_of_true rfl ⟨rfl, rfl⟩, ?_⟩
        rintro _ ⟨⟩ found hfound
        rcases mem_cons.mp hfound with rfl | hfound
        · exact hvalue ▸ dateValue_reads (by rw [hvalue]; rfl)
        · exact ih.2 others hrest found hfound

/-- A document's date column gets the dates that were read, in order, where its parser is the one above. -/
theorem scalarValues_date {p : Parsers}
    (hdates : ∀ s found, parseDateStrToTantivy lib s = some found → p.dateSecs s = found.map (·.2.2)) (field : String)
    (bad : BadValue) {founds : List (Option (ReadDate lib))} (h : values.mapM (dateValue lib) = some founds) :
    scalarValues p field .date bad values = .ok ((founds.filterMap id).map fun date => .date date.2.2) := by
  induction values generalizing founds with
  | nil =>
    cases h
    rfl
  | cons value rest ih =>
    rw [mapM_cons] at h
    obtain ⟨first, hfirst, h⟩ := Option.bind_eq_some_iff.mp h
    obtain ⟨others, hothers, h⟩ := Option.bind_eq_some_iff.mp h
    cases h
    have hvalue : scalarValue p field .date bad value = .ok (first.map fun date => .date date.2.2) := by
      unfold dateValue at hfirst
      split at hfirst
      · next s =>
        rw [scalarValue, hdates s first hfirst, Option.map_map]
        rfl
      · next hother =>
        have hstamp (secs : Option Int) (h : stampFound lib secs = some first) :
            first.map (·.2.2) = secs.map epochSecondsToTantivy := by
          cases secs with
          | none =>
            cases h
            rfl
          | some secs =>
            obtain ⟨date, hdate⟩ := @stampSecs_eq lib secs
            rw [stampFound, hdate] at h
            cases h
            rfl
        have hsecs := hstamp _ hfirst
        rw [show (first.map fun date => TantivyValue.date date.2.2) =
          (first.map (·.2.2)).map .date from by rw [Option.map_map]; rfl, hsecs, Option.map_map, Option.map_map]
        cases value with
        | string s => exact absurd rfl (hother s)
        | null | bool | number | array | object => rfl
    rw [scalarValues, hvalue]
    dsimp only
    rw [ih hothers]
    cases first with
    | none => rfl
    | some date => rfl

/-- Reading a date comes back, and with a clamped date, where the text is cut between characters; and so does
    writing a document's dates where each of them is. -/
theorem dates_safe_iff (lib : DateLib) :
    (∀ s : String, (∃ found, parseDateStrToTantivy lib s = some found ∧ ∀ date ∈ found,
        date.2.2 = epochSecondsToTantivy date.2.1 ∧ tantivyMinTimestampSecs ≤ date.2.2 ∧
        date.2.2 ≤ tantivyMaxTimestampSecs) ↔ CutsBetween lib s) ∧
    ∀ value : JsonValue, (∃ dates, addDates lib value = some dates ∧ ∀ date ∈ dates,
        date.2.2 = epochSecondsToTantivy date.2.1 ∧ tantivyMinTimestampSecs ≤ date.2.2 ∧
        date.2.2 ≤ tantivyMaxTimestampSecs) ↔ ∀ s, .string s ∈ oneOrMany value → CutsBetween lib s := by
  refine ⟨fun s => parseDateStrToTantivy_reads_iff, fun value => ?_⟩
  have hvalues := @mapM_dateValue lib (oneOrMany value)
  simp only [dateValue_isSome_iff] at hvalues
  have hswap : (∀ v ∈ oneOrMany value, ∀ s, v = .string s → CutsBetween lib s) ↔
      ∀ s, .string s ∈ oneOrMany value → CutsBetween lib s :=
    ⟨fun h s hs => h _ hs s rfl, fun h v hv s heq => h s (heq ▸ hv)⟩
  rw [← hswap, ← hvalues.1]
  unfold addDates
  constructor
  · rintro ⟨dates, hdates, -⟩
    obtain ⟨founds, hfounds, -⟩ := Option.map_eq_some_iff.mp hdates
    rw [hfounds]
    rfl
  · intro h
    obtain ⟨founds, hfounds⟩ := Option.isSome_iff_exists.mp h
    refine ⟨founds.filterMap id, by rw [hfounds]; rfl, fun date hdate => ?_⟩
    obtain ⟨found, hfound, hsome⟩ := mem_filterMap.mp hdate
    obtain ⟨_, ⟨⟩, hclamped⟩ := hvalues.2 founds hfounds found hfound
    exact hclamped date hsome

/-- A calendar that reads no text, so that only the forms cut by hand are left. -/
def handOnly : DateLib where
  Date := Unit
  DateTime := Unit
  TantivyDate := Int
  rfc3339 _ := none
  rfc2822 _ := none
  parseDateTime _ _ := none
  parseDate _ _ := none
  fromYmd _ _ _ := none
  andHms _ _ _ _ := none
  year _ := 0
  timestamp _ := 0
  fromTimestampSecs secs := some (secs * 1000000000)
  fromTimestampSecs_isSome _ _ _ := rfl

/-- Seven bytes with a dash as the fifth character, and the fourth byte inside the fourth character. -/
theorem parseDateStrToTantivy_stops :
    handOnly.rfc3339 "202é-1" = none ∧ handOnly.rfc2822 "202é-1" = none ∧ parseNaiveDatetime handOnly "202é-1" = none ∧
      parseDateStrToTantivy handOnly "202é-1" = none := by
  refine ⟨rfl, rfl, by decide, by decide⟩

end Dates

end CameoDb
