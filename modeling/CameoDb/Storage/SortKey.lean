import CameoDb.Storage.Json
import CameoDb.Lib.Rounding
import Mathlib.Algebra.Group.Int.Defs

/-! # Sort keys

The value a sorted hit is ordered by travels beside the hit, from the shard's collector to every merge. The merges
compare it as JSON. -/

namespace CameoDb

inductive SortOrder where
  | asc
  | desc
deriving DecidableEq, Repr

/-- The normalized value a sorted hit ordered on. An address is the 32 hex digits of its IPv6 value. -/
inductive SortKey where
  | u64 (value : UInt64)
  | i64 (value : Int64)
  | f64 (bits : UInt64)
  | date (secs : Int64)
  | str (value : String)
  | ip (hex : String)
deriving DecidableEq, Repr

/-! ### Doubles -/

namespace F64

def exponent (bits : UInt64) : Nat := bits.toNat / 2 ^ 52 % 2 ^ 11

/-- A finite double as a multiple of the least positive one, `2 ^ -1074`. -/
def units (bits : UInt64) : Int :=
  let fraction : Nat := bits.toNat % 2 ^ 52
  let magnitude : Nat := if exponent bits = 0 then fraction else (2 ^ 52 + fraction) * 2 ^ (exponent bits - 1)
  if bits.toNat < 2 ^ 63 then magnitude else -magnitude

def isFinite (bits : UInt64) : Bool := exponent bits ≠ 2 ^ 11 - 1

/-- A whole number converted to a double, in the same units. -/
def ofNat (n : Nat) : Int := (Rounding.nearestEven 53 n : Int) * 2 ^ 1074

end F64

/-- `Number::as_f64`, in units of the least positive double. -/
def JsonNumber.asF64 : JsonNumber → Int
  | posInt n => F64.ofNat n.toNat
  | negInt n => -F64.ofNat n.toInt.natAbs
  | float bits => F64.units bits

def JsonValue.asF64 : JsonValue → Option Int
  | number n => some n.asF64
  | _ => none

def JsonNumber.ofI64 (n : Int64) : JsonNumber := if n < 0 then .negInt n else .posInt n.toUInt64

def SortKey.toJson : SortKey → JsonValue
  | u64 value => .number (.posInt value)
  | i64 value | date value => .number (.ofI64 value)
  | f64 bits => if F64.isFinite bits then .number (.float bits) else .null
  | str value | ip value => .string value

end CameoDb
