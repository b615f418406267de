import Mathlib.Data.List.Basic
import Mathlib.Tactic.Ring

/-! The UTF-8 encoding of the Unicode scalar values. -/

open List

namespace Utf8

def Scalar (r : Nat) : Prop :=
  r < 0xD800 ∨ 0xDFFF < r ∧ r ≤ 0x10FFFF

instance (r : Nat) : Decidable (Scalar r) :=
  inferInstanceAs (Decidable (_ ∨ _))

def Continues (b : UInt8) : Prop :=
  0x80 ≤ b.toNat ∧ b.toNat < 0xC0

instance (b : UInt8) : Decidable (Continues b) :=
  inferInstanceAs (Decidable (_ ∧ _))

def cont (n : Nat) : UInt8 :=
  .ofNat (0x80 + n % 64)

def encode (r : Nat) : List UInt8 :=
  if r < 0x80 then
    [.ofNat r]
  else if r < 0x800 then
    [.ofNat (0xC0 + r / 64), cont r]
  else if r < 0x10000 then
    [.ofNat (0xE0 + r / 4096), cont (r / 64), cont r]
  else
    [.ofNat (0xF0 + r / 262144), cont (r / 4096), cont (r / 64), cont r]

variable {r r' : Nat} {b : UInt8} {p q : List UInt8}

theorem toNat_ofNat (h : n < 256) : (UInt8.ofNat n).toNat = n := by
  rw [UInt8.toNat_ofNat', Nat.mod_eq_of_lt h]

theorem encode_ne_nil (r : Nat) : encode r ≠ [] := by
  unfold encode
  split
  . simp
  . split
    . simp
    . split <;> simp

theorem length_encode_pos (r : Nat) : 0 < (encode r).length :=
  length_pos_iff.mpr (encode_ne_nil r)

theorem length_encode_le (r : Nat) : (encode r).length ≤ 4 := by
  unfold encode
  split_ifs <;> simp

theorem toNat_cont (n : Nat) : (cont n).toNat = 0x80 + n % 64 := by
  exact toNat_ofNat (by omega)

theorem continues_cont (n : Nat) : Continues (cont n) := by
  unfold Continues
  rw [toNat_cont]
  omega

attribute [local simp] continues_cont

theorem encode_eq_cons (h : Scalar r) : ∃ b t, encode r = b :: t ∧ ¬Continues b ∧ (∀ x ∈ t, Continues x) := by
  unfold Scalar at h
  unfold encode
  split_ifs
  all_goals
    refine ⟨_, _, rfl, ?_, by simp⟩
    unfold Continues
    rw [toNat_ofNat (by omega)]
    omega

theorem encode_of_lt (h : r < 0x80) : encode r = [.ofNat r] := by
  unfold encode
  rw [if_pos h]

theorem one_lt_length_encode (hr : 0x80 ≤ r) : 1 < (encode r).length := by
  unfold encode
  rw [if_neg (by omega)]
  split
  . simp
  . split <;> simp

theorem le_of_mem_encode (h : Scalar r) (hr : 0x80 ≤ r) (hb : b ∈ encode r) : 0x80 ≤ b.toNat := by
  unfold Scalar at h
  unfold encode at hb
  rw [if_neg (by omega)] at hb
  split_ifs at hb
  all_goals
    simp only [mem_cons, not_mem_nil, or_false] at hb
    rcases hb with rfl | hb
    . rw [toNat_ofNat (by omega)]
      omega
  . exact hb ▸ (continues_cont _).1
  . rcases hb with rfl | rfl <;> exact (continues_cont _).1
  . rcases hb with rfl | rfl | rfl <;> exact (continues_cont _).1

def Text (p : List UInt8) : Prop :=
  ∃ rs : List Nat, (∀ r ∈ rs, Scalar r) ∧ p = rs.flatMap encode

theorem Text.append (hp : Text p) (hq : Text q) : Text (p ++ q) := by
  obtain ⟨rs, hrs, rfl⟩ := hp
  obtain ⟨rs', hrs', rfl⟩ := hq
  exact ⟨rs ++ rs', by simpa [or_imp, forall_and] using ⟨hrs, hrs'⟩, flatMap_append.symm⟩

end Utf8
