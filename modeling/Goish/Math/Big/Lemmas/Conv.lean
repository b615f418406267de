import Goish.Math.Big.Lemmas.Limbs
import Goish.Math.Big.Impl.Conv

open List Limbs

namespace Big

def bytesValue : List UInt8 → Nat
  | [] => 0
  | b :: l => b.toNat + 2 ^ 8 * bytesValue l

theorem bytesValue_eq_zero_iff (l : List UInt8) : bytesValue l = 0 ↔ ∀ b ∈ l, b = 0 := by
  induction l with
  | nil => simp [bytesValue]
  | cons b l ih =>
    have hb : b.toNat = 0 ↔ b = 0 := UInt8.toNat_inj (b := 0)
    rw [bytesValue, forall_mem_cons, ← ih, ← hb]
    omega

theorem toNat_or_byte (limb : UInt32) (byte : UInt8) (hlimb : limb.toNat < 2 ^ bit) (hbit : bit ≤ 24)
    : (limb ||| byte.toUInt32 <<< UInt32.ofNat bit).toNat = limb.toNat + 2 ^ bit * byte.toNat := by
  have hbyte := byte.toNat_lt
  have hpow : 2 ^ bit ≤ 2 ^ 24 := Nat.pow_le_pow_right (by omega) hbit
  have hlt : byte.toNat * 2 ^ bit < 2 ^ 32 := by
    calc byte.toNat * 2 ^ bit
      _ ≤ 255 * 2 ^ 24 := Nat.mul_le_mul (by omega) hpow
      _ < 2 ^ 32 := by omega
  rw [UInt32.toNat_or, UInt32.toNat_shiftLeft, UInt32.toNat_ofNat', Nat.mod_eq_of_lt (a := bit) (by omega),
    Nat.mod_eq_of_lt (a := bit) (by omega), UInt8.toNat_toUInt32, Nat.shiftLeft_eq, Nat.mod_eq_of_lt hlt,
    Nat.or_comm, mul_comm, ← Nat.two_pow_add_eq_or_of_lt hlimb, add_comm]

theorem beBytesToLimbs.go_value (hlimb : limb.toNat < 2 ^ bit) (hbit : bit ≤ 24) (h8 : bit % 8 = 0)
    : value (go l limb bit) = limb.toNat + 2 ^ bit * bytesValue l := by
  induction l generalizing limb bit with
  | nil =>
    rw [go, bytesValue]
    split
    . next hzero =>
      rw [hzero] at hlimb ⊢
      rw [value_nil]
      omega
    . rw [value_singleton]
      omega
  | cons byte l ih =>
    have hor := toNat_or_byte limb byte hlimb hbit
    have hbyte := byte.toNat_lt
    rw [go, bytesValue]
    split
    . next hfull =>
      have h24 : bit = 24 := by omega
      rw [value_cons, ih (by simp) (by omega) (by omega), hor, h24, UInt32.toNat_zero]
      omega
    next hmore =>
    have hpow : 2 ^ (bit + 8) = 2 ^ bit * 2 ^ 8 := pow_add _ _ _
    have hmul : 2 ^ bit * (byte.toNat + 1) ≤ 2 ^ bit * 2 ^ 8 := Nat.mul_le_mul_left _ (by omega)
    rw [ih _ (by omega) (by omega), hor, hpow]
    . ring
    . rw [hor, hpow]
      rw [mul_add] at hmul
      omega

theorem bytesValue_append_zero (l : List UInt8) : bytesValue (l ++ [0]) = bytesValue l := by
  induction l with
  | nil => rfl
  | cons b l ih => rw [cons_append, bytesValue, bytesValue, ih]

theorem bytesValue_dropWhile (l : List UInt8) : bytesValue (l.dropWhile (· == 0)).reverse = bytesValue l.reverse := by
  induction l with
  | nil => rfl
  | cons b l ih =>
    rw [dropWhile_cons]
    split
    . next hzero =>
      rw [ih, beq_iff_eq.mp hzero, reverse_cons, bytesValue_append_zero]
    . rfl

theorem beBytesToLimbs_value (buf : List UInt8) : value (beBytesToLimbs buf) = bytesValue buf.reverse := by
  have hsig := bytesValue_dropWhile buf
  unfold beBytesToLimbs
  dsimp only
  split
  . next hnil =>
    rwa [hnil] at hsig
  . rw [value_trim, beBytesToLimbs.go_value (by simp) (by omega) rfl, hsig, UInt32.toNat_zero, pow_zero,
      zero_add, one_mul]

theorem beBytesToLimbs_canonical (buf : List UInt8) : Canonical (beBytesToLimbs buf) := by
  unfold beBytesToLimbs
  dsimp only
  split
  . exact canonical_nil
  . exact canonical_trim _

theorem beBytesToLimbs_eq_nil_iff (buf : List UInt8) : beBytesToLimbs buf = [] ↔ ∀ b ∈ buf, b = 0 := by
  rw [← (beBytesToLimbs_canonical buf).value_eq_zero_iff, beBytesToLimbs_value, bytesValue_eq_zero_iff]
  simp

theorem wordsToLimbs_canonical (words : List UInt64) : Canonical (wordsToLimbs words) :=
  canonical_trim _

theorem mulAddWord_canonical (limbs : List UInt32) (mul add : UInt32) : Canonical (mulAddWord limbs mul add) :=
  canonical_trim _

theorem scanDigits_canonical (base b : ℤ) (bytes : List UInt8) (s : Scan) (hs : Canonical s.limbs)
    : Canonical (scanDigits base b bytes s).2.limbs := by
  induction bytes generalizing s with
  | nil => exact hs
  | cons _ _ ih =>
    rw [scanDigits]
    split
    . exact ih _ hs
    . split
      . exact ih _ (mulAddWord_canonical _ _ _)
      . exact hs

theorem scanInt_canonical {neg : Bool} {abs : List UInt32} (h : scanInt bytes base = some (neg, abs)) : Canonical abs := by
  have hdigits := scanDigits_canonical base (scanPrefix base (scanSign bytes).2).1
    (scanPrefix base (scanSign bytes).2).2.2.2
    { limbs := [], count := 0, invalSep := false, prev := (scanPrefix base (scanSign bytes).2).2.2.1 } canonical_nil
  unfold scanInt at h
  dsimp only at h
  split at h
  . contradiction
  split at h
  . contradiction
  split at h
  . contradiction
  split at h
  . split at h
    . cases h
      exact canonical_nil
    . contradiction
  . cases h
    exact hdigits

end Big
