import CameoDb.Lib.BitBlock
import CameoDb.Lib.Text
import CameoDb.Storage.DeleteQuery

/-! # Clauses on ip fields

An ip field holds every address as an IPv6 one. A clause on it is an address, a block in CIDR notation, or a range. -/

namespace CameoDb

inductive IpAddr where
  | v4 (address : BitVec 32)
  | v6 (address : BitVec 128)
  deriving DecidableEq, Repr

def IpAddr.stored : IpAddr → BitVec 128
  | v4 address => 0xffff#96 ++ address
  | v6 address => address

/-- Reading and writing addresses, as the standard library does: what is written is read back. -/
structure IpText where
  parse : String → Option IpAddr
  showV4 : BitVec 32 → String
  showV6 : BitVec 128 → String
  parse_showV4 : ∀ address, parse (showV4 address) = some (.v4 address)
  parse_showV6 : ∀ address, parse (showV6 address) = some (.v6 address)

def splitText (text : String) (c : Char) : Option (String × String) :=
  match text.toList.dropWhile (· ≠ c) with
  | [] => none
  | _ :: rest => some (String.ofList (text.toList.takeWhile (· ≠ c)), String.ofList rest)

section Ip
variable (ips : IpText)

/-- The first and last address of a CIDR block. Bits set below the length are ignored. -/
def cidrRange (text : String) : Option (String × String) := do
  let (address, bits) ← splitText (trim text) '/'
  let bits ← Decimal.parse (2 ^ 32) bits.toList
  match ← ips.parse address with
  | .v4 address =>
    if bits ≤ 32 then
      let mask := BitBlock.mask 32 bits
      let low := address &&& mask
      some (ips.showV4 low, ips.showV4 (low ||| ~~~ mask))
    else none
  | .v6 address =>
    if bits ≤ 128 then
      let mask := BitBlock.mask 128 bits
      let low := address &&& mask
      some (ips.showV6 low, ips.showV6 (low ||| ~~~ mask))
    else none

def withinIpRange (lower upper : UserInputBound) (address : BitVec 128) : Bool :=
  let above := match lower with
    | .inclusive value => (ips.parse value).any fun bound => bound.stored.toNat ≤ address.toNat
    | .exclusive value => (ips.parse value).any fun bound => bound.stored.toNat < address.toNat
    | .unbounded => true
  let below := match upper with
    | .inclusive value => (ips.parse value).any fun bound => address.toNat ≤ bound.stored.toNat
    | .exclusive value => (ips.parse value).any fun bound => address.toNat < bound.stored.toNat
    | .unbounded => true
  above && below

def pushNote (notes : List String) (note : String) : List String :=
  if note ∈ notes then notes else notes ++ [note]

def trimEnd (text : String) (c : Char) : String := String.ofList (text.toList.rdropWhile (· = c))

def ipPrefixNote (field start : String) : String :=
  let octets := splitAt (trimEnd start '.') '.'
  let block := 1 ≤ octets.length && octets.length ≤ 3 &&
    octets.all fun octet => (Decimal.parse (2 ^ 8) octet.toList).isSome
  let instead :=
    if block then
      let address := octets ++ List.replicate (4 - octets.length) "0"
      "`" ++ field ++ ":" ++ String.intercalate "." address ++ "/" ++ toString (octets.length * 8) ++ "`"
    else "a CIDR block, `" ++ field ++ ":10.1.0.0/16`, or a range"
  "an ip field matches whole addresses, so the prefix `" ++ field ++ ":" ++ start ++ "*` was dropped; use " ++
    instead ++ " instead"

def UserInputBound.isUnbounded : UserInputBound → Bool
  | unbounded => true
  | _ => false

def isV4Bound : UserInputBound → Bool
  | .inclusive value | .exclusive value =>
    match ips.parse (trim value) with
    | some (.v4 _) => true
    | _ => false
  | .unbounded => false

def ipClause (literal : UserInputLiteral) (phrase : String) (block : Option (String × String)) (field : String) :
    UserInputLeaf :=
  match block with
  | some (low, high) => .range (some field) (.inclusive low) (.inclusive high)
  | none => .literal { literal with fieldName := some field, phrase := phrase }

def screenIpLeaf (ipFields : List String) (notes : List String) : UserInputLeaf → Option UserInputAst × List String
  | .literal literal =>
    if literal.slop = 0 then
      match literal.fieldName with
      | some field =>
        if ipFields.contains field then
          if literal.isPrefix || literal.phrase.toList.getLast? = some '*' then
            (none, pushNote notes (ipPrefixNote field (trimEnd literal.phrase '*')))
          else
            match cidrRange ips literal.phrase with
            | some (low, high) => (some (.leaf (.range (some field) (.inclusive low) (.inclusive high))), notes)
            | none => (some (.leaf (.literal literal)), notes)
        else (some (.leaf (.literal literal)), notes)
      | none =>
        if !literal.isPrefix && !ipFields.isEmpty then
          let phrase := trim literal.phrase
          let block := cidrRange ips phrase
          if block.isNone && (ips.parse phrase).isNone then (some (.leaf (.literal literal)), notes)
          else
            let either := (some Occur.should, BooleanQuery.leaf (.literal literal)) ::
              ipFields.map fun field => (some .should, .leaf (ipClause literal phrase block field))
            (some (.clause either), notes)
        else (some (.leaf (.literal literal)), notes)
    else (some (.leaf (.literal literal)), notes)
  | .range (some field) lower upper =>
    if ipFields.contains field then
      let (lower, upper) :=
        if lower.isUnbounded && isV4Bound ips upper then (.inclusive "0.0.0.0", upper)
        else if upper.isUnbounded && isV4Bound ips lower then (lower, .inclusive "255.255.255.255")
        else (lower, upper)
      (some (.leaf (.range (some field) lower upper)), notes)
    else (some (.leaf (.range (some field) lower upper)), notes)
  | other => (some (.leaf other), notes)

end Ip

end CameoDb
