import Mathlib.Data.List.Basic

/-! # JSON values

The values a document body is made of, as the store reads them. An object keeps its members in the order it
was written in, each name once. -/

namespace CameoDb

inductive JsonNumber where
  | posInt (n : UInt64)
  | negInt (n : Int64)
  | float (bits : UInt64)
  deriving DecidableEq, Repr

inductive JsonValue where
  | null
  | bool (b : Bool)
  | number (n : JsonNumber)
  | string (s : String)
  | array (items : List JsonValue)
  | object (members : List (String × JsonValue))
  deriving Repr, Inhabited

namespace JsonNumber

/-- The largest `i64`, as a `u64`. -/
def i64Max : UInt64 := 9223372036854775807

def isI64 : JsonNumber → Bool
  | posInt n => n ≤ i64Max
  | negInt _ => true
  | float _ => false

def isU64 : JsonNumber → Bool
  | posInt _ => true
  | _ => false

def asU64 : JsonNumber → Option UInt64
  | posInt n => some n
  | _ => none

def asI64 : JsonNumber → Option Int64
  | posInt n => if n ≤ i64Max then some n.toInt64 else none
  | negInt n => some n
  | float _ => none

end JsonNumber

namespace JsonValue

def asArray : JsonValue → Option (List JsonValue)
  | array items => some items
  | _ => none

def asObject : JsonValue → Option (List (String × JsonValue))
  | object members => some members
  | _ => none

def asStr : JsonValue → Option String
  | string s => some s
  | _ => none

def asBool : JsonValue → Option Bool
  | bool b => some b
  | _ => none

def asU64 : JsonValue → Option UInt64
  | number n => n.asU64
  | _ => none

def asI64 : JsonValue → Option Int64
  | number n => n.asI64
  | _ => none

def member? (members : List (String × JsonValue)) (name : String) : Option JsonValue :=
  members.lookup name

mutual

def same : JsonValue → JsonValue → Bool
  | null, null => true
  | bool a, bool b => a == b
  | number a, number b => a == b
  | string a, string b => a == b
  | array as, array bs => sameItems as bs
  | object as, object bs => as.length == bs.length && sameMembers as bs
  | _, _ => false

def sameItems : List JsonValue → List JsonValue → Bool
  | [], [] => true
  | a :: as, b :: bs => same a b && sameItems as bs
  | _, _ => false

def sameMembers : List (String × JsonValue) → List (String × JsonValue) → Bool
  | [], _ => true
  | (name, a) :: as, bs =>
    (match bs.lookup name with
      | some b => same a b
      | none => false) && sameMembers as bs

end

mutual

def decEq : (a b : JsonValue) → Decidable (a = b)
  | null, null => isTrue rfl
  | bool a, bool b => decidable_of_iff (a = b) (by simp)
  | number a, number b => decidable_of_iff (a = b) (by simp)
  | string a, string b => decidable_of_iff (a = b) (by simp)
  | array as, array bs =>
    match decEqItems as bs with
    | isTrue h => isTrue (by rw [h])
    | isFalse h => isFalse (by simpa using h)
  | object as, object bs =>
    match decEqMembers as bs with
    | isTrue h => isTrue (by rw [h])
    | isFalse h => isFalse (by simpa using h)
  | null, bool _ | null, number _ | null, string _ | null, array _ | null, object _
  | bool _, null | bool _, number _ | bool _, string _ | bool _, array _ | bool _, object _
  | number _, null | number _, bool _ | number _, string _ | number _, array _ | number _, object _
  | string _, null | string _, bool _ | string _, number _ | string _, array _ | string _, object _
  | array _, null | array _, bool _ | array _, number _ | array _, string _ | array _, object _
  | object _, null | object _, bool _ | object _, number _ | object _, string _ | object _, array _ =>
    isFalse (by simp)

def decEqItems : (as bs : List JsonValue) → Decidable (as = bs)
  | [], [] => isTrue rfl
  | [], _ :: _ | _ :: _, [] => isFalse (by simp)
  | a :: as, b :: bs =>
    match decEq a b, decEqItems as bs with
    | isTrue ha, isTrue hs => isTrue (by rw [ha, hs])
    | isFalse h, _ => isFalse (by simp [h])
    | _, isFalse h => isFalse (by simp [h])

def decEqMembers : (as bs : List (String × JsonValue)) → Decidable (as = bs)
  | [], [] => isTrue rfl
  | [], _ :: _ | _ :: _, [] => isFalse (by simp)
  | (m, a) :: as, (n, b) :: bs =>
    match decEq a b, decEqMembers as bs with
    | isTrue ha, isTrue hs =>
      if hn : m = n then isTrue (by rw [hn, ha, hs]) else isFalse (by simp [hn])
    | isFalse h, _ => isFalse (by simp [h])
    | _, isFalse h => isFalse (by simp [h])

end

instance : DecidableEq JsonValue := decEq

end JsonValue

end CameoDb
