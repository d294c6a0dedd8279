import CameoDb.Storage.IpQuery

/-! # Clauses on ip fields: what a block holds

A block of IPv6 addresses that reaches over `::ffff:0:0/96` holds IPv4 addresses too. -/

namespace CameoDb
open BitBlock

variable {ips : IpText}

def IpAddr.width : IpAddr → Nat
  | v4 _ => 32
  | v6 _ => 128

/-- The addresses of a block: for an IPv4 one the IPv4 addresses with its first bits, and for an IPv6 one whatever
    is stored with its first bits. -/
def InBlock : IpAddr → Nat → IpAddr → Prop
  | .v4 block, bits, x => ∃ address, x.stored = (IpAddr.v4 address).stored ∧
      ∀ i < bits, address.getMsbD i = block.getMsbD i
  | .v6 block, bits, x => ∀ i < bits, x.stored.getMsbD i = block.getMsbD i

/-- The address has the first `bits` bits of the block. -/
def InBlockOfFamily : IpAddr → Nat → IpAddr → Prop
  | .v4 block, bits, .v4 address => ∀ i < bits, address.getMsbD i = block.getMsbD i
  | .v6 block, bits, .v6 address => ∀ i < bits, address.getMsbD i = block.getMsbD i
  | _, _, _ => False

theorem toNat_stored_v4 (address : BitVec 32) : (IpAddr.v4 address).stored.toNat = 0xffff * 2 ^ 32 + address.toNat := by
  rw [IpAddr.stored, BitVec.toNat_append, ← Nat.shiftLeft_add_eq_or_of_lt address.isLt, Nat.shiftLeft_eq]
  rfl

theorem between_stored_v4 {low high : BitVec 32} {x : BitVec 128} :
    (IpAddr.v4 low).stored.toNat ≤ x.toNat ∧ x.toNat ≤ (IpAddr.v4 high).stored.toNat ↔
      ∃ address, x = (IpAddr.v4 address).stored ∧ low.toNat ≤ address.toNat ∧ address.toNat ≤ high.toNat := by
  rw [toNat_stored_v4, toNat_stored_v4]
  constructor
  · rintro ⟨hlow, hhigh⟩
    have hlt := high.isLt
    have hofNat : (BitVec.ofNat 32 (x.toNat - 0xffff * 2 ^ 32)).toNat = x.toNat - 0xffff * 2 ^ 32 := by
      rw [BitVec.toNat_ofNat, Nat.mod_eq_of_lt (by omega)]
    refine ⟨BitVec.ofNat 32 (x.toNat - 0xffff * 2 ^ 32), BitVec.eq_of_toNat_eq ?_, ?_, ?_⟩
    · rw [toNat_stored_v4, hofNat]
      omega
    · omega
    · omega
  · rintro ⟨address, rfl, hlow, hhigh⟩
    rw [toNat_stored_v4]
    omega

theorem withinIpRange_inclusive {low high : IpAddr} {lower upper : String} (hlower : ips.parse lower = some low)
    (hupper : ips.parse upper = some high) (x : BitVec 128) :
    withinIpRange ips (.inclusive lower) (.inclusive upper) x = true ↔ low.stored.toNat ≤ x.toNat ∧
    x.toNat ≤ high.stored.toNat := by
  simp [withinIpRange, hlower, hupper]

section Block
variable {text addressText bitsText : String} {bits : Nat}

theorem screenIpLeaf_block {low high : String} (hcidr : cidrRange ips text = some (low, high)) {ipFields : List String}
    (notes : List String) {field : String} {literal : UserInputLiteral} (hfield : field ∈ ipFields)
    (hphrase : literal.phrase = text)
    (hname : literal.fieldName = some field) (hslop : literal.slop = 0) (hstarts : literal.isPrefix = false)
    (hstar : text.toList.getLast? ≠ some '*') :
    screenIpLeaf ips ipFields notes (.literal literal) =
      (some (.leaf (.range (some field) (.inclusive low) (.inclusive high))), notes) := by
  rw [screenIpLeaf, if_pos hslop, hname]
  dsimp only
  rw [if_pos (by simpa using hfield), hphrase, hstarts, if_neg (by simpa using hstar), hcidr]

/-- A block in CIDR notation has bounds, and an address is within them where it is in the block; and a clause with
    such a block on an ip field is the range between them. -/
theorem cidrRange_block (ips : IpText) {block : IpAddr}
    (hsplit : splitText (trim text) '/' = some (addressText, bitsText))
    (hblock : ips.parse addressText = some block) (hbits : Decimal.parse (2 ^ 32) bitsText.toList = some bits)
    (hle : bits ≤ block.width) :
    ∃ low high, cidrRange ips text = some (low, high) ∧
      (∀ x : IpAddr, withinIpRange ips (.inclusive low) (.inclusive high) x.stored = true ↔ InBlock block bits x) ∧
      ∀ (ipFields notes : List String) (field : String) (literal : UserInputLiteral), field ∈ ipFields →
      literal.phrase = text →
        literal.fieldName = some field → literal.slop = 0 → literal.isPrefix = false → text.toList.getLast? ≠ some '*' →
        screenIpLeaf ips ipFields notes (.literal literal) =
          (some (.leaf (.range (some field) (.inclusive low) (.inclusive high))), notes) := by
  have hrange : ∃ low high, cidrRange ips text = some (low, high) ∧
      ∀ x : IpAddr, withinIpRange ips (.inclusive low) (.inclusive high) x.stored = true ↔ InBlock block bits x := by
    simp only [cidrRange, hsplit, hbits, hblock, Option.bind_eq_bind, Option.bind_some]
    cases block with
    | v4 block =>
      refine ⟨_, _, if_pos hle, fun x => ?_⟩
      rw [withinIpRange_inclusive (ips.parse_showV4 _) (ips.parse_showV4 _), between_stored_v4]
      exact exists_congr fun address => and_congr_right fun _ => mem_block_iff hle
    | v6 block =>
      refine ⟨_, _, if_pos hle, fun x => ?_⟩
      rw [withinIpRange_inclusive (ips.parse_showV6 _) (ips.parse_showV6 _)]
      exact mem_block_iff hle
  obtain ⟨low, high, hcidr, hin⟩ := hrange
  refine ⟨low, high, hcidr, hin, fun ipFields notes field literal hfield hphrase hname hslop hstarts hstar => ?_⟩
  exact screenIpLeaf_block hcidr notes hfield hphrase hname hslop hstarts hstar

end Block

/-! ### Over both families -/

/-- Addresses as text, with the first and the last IPv6 address written as they are. -/
def plainIps : IpText where
  parse s :=
    match s.toList with
    | [':', ':'] => some (.v6 0)
    | 'f' :: rest =>
      if rest = "fff:ffff:ffff:ffff:ffff:ffff:ffff:ffff".toList then some (.v6 (BitVec.allOnes 128)) else none
    | 'i' :: rest => (Decimal.parse (2 ^ 32) rest).map fun n => .v4 (BitVec.ofNat 32 n)
    | 'I' :: rest => (Decimal.parse (2 ^ 128) rest).map fun n => .v6 (BitVec.ofNat 128 n)
    | _ => none
  showV4 address := "i" ++ toString address.toNat
  showV6 address :=
    if address = 0 then "::"
    else if address = BitVec.allOnes 128 then "ffff:ffff:ffff:ffff:ffff:ffff:ffff:ffff"
    else "I" ++ toString address.toNat
  parse_showV4 address := by
    have hlist : ("i" ++ toString address.toNat).toList = 'i' :: (toString address.toNat).toList := by
      rw [String.toList_append]
      rfl
    simp only [hlist]
    rw [Decimal.parse_toString address.isLt, Option.map_some, BitVec.ofNat_toNat, BitVec.setWidth_eq]
  parse_showV6 address := by
    have hlist : ("I" ++ toString address.toNat).toList = 'I' :: (toString address.toNat).toList := by
      rw [String.toList_append]
      rfl
    split_ifs with hzero hlast
    · rw [hzero]
      rfl
    · rw [hlast]
      rfl
    · simp only [hlist]
      rw [Decimal.parse_toString address.isLt, Option.map_some, BitVec.ofNat_toNat, BitVec.setWidth_eq]

/-- The block `10.0.0.0/8` in that writing, with an address of it and one outside. -/
theorem cidrRange_block_ten : ∃ low high, cidrRange plainIps "i167772160/8" = some (low, high) ∧
    withinIpRange plainIps (.inclusive low) (.inclusive high) (IpAddr.v4 0x0a0000ff).stored = true ∧
    withinIpRange plainIps (.inclusive low) (.inclusive high) (IpAddr.v6 0x0a0000ff).stored = false ∧
    screenIpLeaf plainIps ["ip"] [] (.literal ⟨some "ip", "i167772160/8", .none, 0, false⟩) =
      (some (.leaf (.range (some "ip") (.inclusive low) (.inclusive high))), []) := by
  have hsplit : splitText (trim "i167772160/8") '/' = some ("i167772160", "8") := by decide
  obtain ⟨low, high, hcidr, hin, hclause⟩ :=
    @cidrRange_block _ _ _ 8 plainIps (.v4 0x0a000000) hsplit (by decide) (by decide) (by decide)
  refine ⟨low, high, hcidr, (hin (.v4 0x0a0000ff)).mpr ⟨0x0a0000ff, rfl, by decide⟩, ?_, ?_⟩
  · rw [Bool.eq_false_iff]
    intro hwithin
    obtain ⟨address, hstored, -⟩ := (hin _).mp hwithin
    have hnat := congrArg BitVec.toNat hstored
    rw [toNat_stored_v4] at hnat
    exact absurd hnat (by simp [IpAddr.stored]; omega)
  · exact hclause ["ip"] [] "ip" _ (by decide) rfl rfl rfl rfl (by decide)

/-- The block of all IPv6 addresses holds an IPv4 one. -/
theorem cidrRange_across_families :
    cidrRange plainIps "::/0" = some ("::", "ffff:ffff:ffff:ffff:ffff:ffff:ffff:ffff") ∧
      withinIpRange plainIps (.inclusive "::") (.inclusive "ffff:ffff:ffff:ffff:ffff:ffff:ffff:ffff")
      (IpAddr.v4 0x0a000001).stored = true ∧ ¬ InBlockOfFamily (.v6 0) 0 (.v4 0x0a000001) := by
  refine ⟨by decide, by decide, id⟩

end CameoDb
