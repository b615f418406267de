import Mathlib.Data.BitVec

/-! The prefixes of `net::netip`. A `uint128` is its value. -/

namespace Netip

def mask6 (n : Nat) : BitVec 128 :=
  let hi := if n = 0 then 0 else if n ≥ 64 then BitVec.allOnes 64 else ~~~(BitVec.allOnes 64 >>> n)
  let lo := if n ≤ 64 then 0 else if n ≥ 128 then BitVec.allOnes 64 else BitVec.allOnes 64 <<< (128 - n)
  hi ++ lo

inductive Z where
  | z0
  | z4
  | z6noz
  | zone (name : List UInt8)
  deriving DecidableEq

/-- An IPv4 address is the end of a mapped one. -/
@[ext]
structure Addr where
  addr : BitVec 128
  z : Z
  zero : z = .z0 → addr = 0
  mapped : z = .z4 → addr >>> 32 = 0xffff
  deriving DecidableEq

namespace Addr

def default : Addr :=
  { addr := 0, z := .z0, zero := fun _ => rfl, mapped := nofun }

def isValid (ip : Addr) : Bool :=
  ip.z ≠ .z0

def bitLen (ip : Addr) : Int :=
  if ip.z = .z0 then 0 else if ip.z = .z4 then 32 else 128

def is4 (ip : Addr) : Bool :=
  ip.z = .z4

def is6 (ip : Addr) : Bool :=
  ip.z ≠ .z0 ∧ ip.z ≠ .z4

def hasZone (ip : Addr) : Bool :=
  ip.z matches .zone _

def withoutZone (ip : Addr) : Addr :=
  if !ip.is6 then ip else { ip with z := .z6noz, zero := nofun, mapped := nofun }

end Addr

@[ext]
structure Prefix where
  ip : Addr
  bitsPlusOne : Nat
  zone : ip.hasZone = false
  le : bitsPlusOne ≤ ip.bitLen + 1
  deriving DecidableEq

def Prefix.default : Prefix :=
  { ip := .default, bitsPlusOne := 0, zone := rfl, le := by decide }

theorem hasZone_withoutZone (ip : Addr) : ip.withoutZone.hasZone = false := by
  unfold Addr.withoutZone Addr.is6 Addr.hasZone
  cases h : ip.z <;> simp [h]

theorem bitLen_withoutZone (ip : Addr) : ip.withoutZone.bitLen = ip.bitLen := by
  unfold Addr.withoutZone Addr.is6 Addr.bitLen
  cases h : ip.z <;> simp [h]

def prefixFrom (ip : Addr) (bits : Int) : Prefix :=
  if h : bits < 0 ∨ bits > ip.bitLen then
    .default
  else
    { ip := ip.withoutZone
      bitsPlusOne := (bits + 1).toNat
      zone := hasZone_withoutZone ip
      le := by rw [bitLen_withoutZone]; omega }

theorem mask6_mapped : ∀ n < 129, 96 ≤ n → 0xffff &&& mask6 n >>> 32 = 0xffff := by
  decide +kernel

/-- The method `Prefix` of an address. -/
def Addr.toPrefix (ip : Addr) (b : Int) : Except String Prefix :=
  if h0 : b < 0 then
    .error "negative Prefix bits"
  else if ip.z = .z0 then
    .ok .default
  else if h : b > if ip.is4 then 32 else 128 then
    .error ("prefix length " ++ toString b ++ if ip.is4 then " too large for IPv4" else " too large for IPv6")
  else
    let effectiveBits := b.toNat + if ip.is4 then 96 else 0
    let ip := { ip with
      addr := ip.addr &&& mask6 effectiveBits
      zero := fun hz => by simp [ip.zero hz]
      mapped := fun hz => by
        rw [BitVec.ushiftRight_and_distrib, ip.mapped hz]
        exact mask6_mapped _ (by grind) (by grind [is4]) }
    .ok (prefixFrom ip b)

namespace Prefix

def bits (p : Prefix) : Int :=
  p.bitsPlusOne - 1

def isValid (p : Prefix) : Bool :=
  p.bitsPlusOne > 0

def masked (p : Prefix) : Prefix :=
  match p.ip.toPrefix p.bits with
  | .ok m => m
  | .error _ => .default

def contains (p : Prefix) (ip : Addr) : Bool :=
  if !p.isValid || ip.hasZone then
    false
  else if p.ip.is4 ≠ ip.is4 then
    false
  else if p.ip.is4 then
    if p.bits = 32 then
      p.ip = ip
    else
      let x := p.ip.addr.setWidth 32
      let y := ip.addr.setWidth 32
      let b := 32 - p.bits
      if b = 32 then true else x >>> b.toNat = y >>> b.toNat
  else
    let m := mask6 p.bits.toNat
    p.ip.addr &&& m = ip.addr &&& m

def overlaps (p o : Prefix) : Bool :=
  if !p.isValid || !o.isValid then
    false
  else if p.ip.is4 ≠ o.ip.is4 then
    false
  else
    let (p, o) := if p.bits > o.bits then (o, p) else (p, o)
    if p.bits = o.bits then p.masked = o.masked else p.contains o.ip

end Prefix

end Netip
