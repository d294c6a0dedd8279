import CameoDb.Lib.Decimal
import CameoDb.Lib.Slice
import CameoDb.Storage.Document
import Mathlib.Algebra.Group.Int.Defs
import Mathlib.Data.List.Infix

/-! # Dates as text

The library reads the forms with an offset and the naive ones; the others are cut out by hand. A slice off a
character boundary has no value. -/

namespace CameoDb

/-- What is taken from the libraries: chrono's parsers and calendar, and tantivy's date, which counts nanoseconds in
    an `i64`. -/
structure DateLib where
  Date : Type
  DateTime : Type
  TantivyDate : Type
  /-- `DateTime::parse_from_rfc3339`, as its timestamp. -/
  rfc3339 : String → Option Int
  /-- `DateTime::parse_from_rfc2822`, as its timestamp. -/
  rfc2822 : String → Option Int
  /-- `NaiveDateTime::parse_from_str`: the text and its format. -/
  parseDateTime : String → String → Option DateTime
  /-- `NaiveDate::parse_from_str`. -/
  parseDate : String → String → Option Date
  fromYmd : Int → Nat → Nat → Option Date
  andHms : Date → Nat → Nat → Nat → Option DateTime
  year : DateTime → Int
  /-- The seconds since the epoch, read as UTC. -/
  timestamp : DateTime → Int
  /-- `tantivy::DateTime::from_timestamp_secs`: no value where its nanoseconds overflow. -/
  fromTimestampSecs : Int → Option TantivyDate
  fromTimestampSecs_isSome : ∀ secs, -2 ^ 63 ≤ secs * 1000000000 → secs * 1000000000 < 2 ^ 63 →
    (fromTimestampSecs secs).isSome

def naiveDatetimeFormats : List String :=
  ["%Y-%m-%d %H:%M:%S", "%Y-%m-%d %H:%M", "%Y-%m-%dT%H:%M:%S", "%Y-%m-%dT%H:%M", "%Y-%m-%d %H:%M:%S%.f",
    "%Y-%m-%dT%H:%M:%S%.f", "%Y/%m/%d %H:%M:%S", "%Y/%m/%d %H:%M", "%Y/%m/%dT%H:%M:%S", "%Y/%m/%dT%H:%M",
    "%Y.%m.%d %H:%M:%S", "%Y.%m.%d %H:%M", "%Y.%m.%dT%H:%M:%S", "%Y.%m.%dT%H:%M"]

def naiveDateFormats : List String := ["%Y-%m-%d", "%Y/%m/%d", "%Y.%m.%d", "%Y%m%d"]

def yearLastFormats : List String :=
  ["%m/%d/%Y", "%m/%d/%Y %H:%M:%S", "%m/%d/%Y %H:%M", "%d.%m.%Y", "%d.%m.%Y %H:%M:%S", "%d.%m.%Y %H:%M",
    "%b %d, %Y", "%B %d, %Y", "%b %d %Y", "%B %d %Y", "%d %b %Y", "%d %B %Y"]

def fourPlaces (n : Int) : List Char :=
  let digits := Nat.toDigits 10 n.natAbs
  if n < 0 then '-' :: (List.replicate (3 - digits.length) '0' ++ digits)
  else List.replicate (4 - digits.length) '0' ++ digits

section Dates
variable (lib : DateLib)

/-- A date or datetime written without an offset, in the first form that reads it with its year written out. -/
def parseNaiveDatetime (s : String) : Option lib.DateTime :=
  let parse := fun format =>
    (lib.parseDateTime s format).or ((lib.parseDate s format).bind fun date => lib.andHms date 0 0 0)
  ((naiveDatetimeFormats ++ naiveDateFormats ++ yearLastFormats).filterMap parse).find? fun parsed =>
    fourPlaces (lib.year parsed) <:+: s.toList

abbrev ReadDate := lib.TantivyDate × Int × Int

def stampSecs (secs : Int) : Option (ReadDate lib) :=
  (lib.fromTimestampSecs (epochSecondsToTantivy secs)).map fun date => (date, secs, epochSecondsToTantivy secs)

/-- One form after another, until one reads the text. -/
def firstForm {α : Type} : List (Option (Option α)) → Option (Option α)
  | [] => some none
  | form :: rest =>
    match form with
    | none => none
    | some (some found) => some (some found)
    | some none => firstForm rest

def civil (year : Option Int) (month day hour min sec : Option Nat) : Option lib.DateTime := do
  let date ← lib.fromYmd (← year) (← month) (← day)
  lib.andHms date (← hour) (← min) (← sec)

def i32 (text : List Char) : Option Int := Decimal.parseSigned (2 ^ 31) text

def u32 (text : List Char) : Option Nat := Decimal.parse (2 ^ 32) text

def stampFound : Option Int → Option (Option (ReadDate lib))
  | none => some none
  | some secs => (stampSecs lib secs).map some

/-- `YYYYMMDDHHMMSS`. -/
def compactSeconds (text : List Char) : Option (Option (ReadDate lib)) :=
  if byteLength text = 14 && text.all Char.isDigit then do
    let year ← slice text 0 4
    let month ← slice text 4 6
    let day ← slice text 6 8
    let hour ← slice text 8 10
    let min ← slice text 10 12
    let sec ← slice text 12 14
    stampFound lib ((civil lib (i32 year) (u32 month) (u32 day) (u32 hour) (u32 min) (u32 sec)).map lib.timestamp)
  else some none

/-- `YYYYMMDDHHMM`. -/
def compactMinutes (text : List Char) : Option (Option (ReadDate lib)) :=
  if byteLength text = 12 && text.all Char.isDigit then do
    let year ← slice text 0 4
    let month ← slice text 4 6
    let day ← slice text 6 8
    let hour ← slice text 8 10
    let min ← slice text 10 12
    stampFound lib ((civil lib (i32 year) (u32 month) (u32 day) (u32 hour) (u32 min) (some 0)).map lib.timestamp)
  else some none

def epochSeconds (text : List Char) : Option (Option (ReadDate lib)) :=
  if (byteLength text = 10 || byteLength text = 11) && text.all Char.isDigit then
    stampFound lib ((Decimal.parseSigned (2 ^ 63) text).filter fun secs => 946684800 ≤ secs && secs ≤ 10000000000)
  else some none

/-- `YYYY-MM`: seven bytes whose fifth character is a dash. -/
def yearMonth (text : List Char) : Option (Option (ReadDate lib)) :=
  if byteLength text = 7 && text[4]? = some '-' then do
    let year ← slice text 0 4
    let month ← slice text 5 7
    stampFound lib ((civil lib (i32 year) (u32 month) (some 1) (some 0) (some 0) (some 0)).map lib.timestamp)
  else some none

/-- `YYYY`. -/
def yearOnly (text : List Char) : Option (Option (ReadDate lib)) :=
  if byteLength text = 4 && text.all Char.isDigit then
    stampFound lib ((civil lib (i32 text) (some 1) (some 1) (some 0) (some 0) (some 0)).map lib.timestamp)
  else some none

def parseDateStrToTantivy (s : String) : Option (Option (ReadDate lib)) :=
  firstForm
    [stampFound lib ((lib.rfc3339 s).or (lib.rfc2822 s)), stampFound lib ((parseNaiveDatetime lib s).map lib.timestamp),
      compactSeconds lib s.toList, compactMinutes lib s.toList, epochSeconds lib s.toList, yearMonth lib s.toList,
      yearOnly lib s.toList]

/-- The date of one entry of a date field: written, or counted in seconds. -/
def dateValue : JsonValue → Option (Option (ReadDate lib))
  | .string s => parseDateStrToTantivy lib s
  | value => stampFound lib (value.asI64.map Int64.toInt)

def addDates (value : JsonValue) : Option (List (ReadDate lib)) :=
  ((oneOrMany value).mapM (dateValue lib)).map (List.filterMap id)

end Dates

end CameoDb
