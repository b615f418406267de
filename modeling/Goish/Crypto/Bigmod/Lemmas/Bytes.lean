import Goish.Crypto.Bigmod.Lemmas.Nat

open List WordList

namespace Bigmod

theorem toNat_byte (x : BitVec 8) : (x.setWidth 64).toNat = x.toNat := by
  rw [BitVec.toNat_setWidth, Nat.mod_eq_of_lt (by omega)]

theorem bigEndianUint_spec (b : List (BitVec 8)) (hlen : b.length ≤ 8) : (bigEndianUint b).toNat = value b.reverse := by
  have hfold : ∀ (b : List (BitVec 8)) (u : Word) (k : Nat), u.toNat < (2 ^ 8) ^ k → k + b.length ≤ 8 →
      (b.foldl (fun (w : Word) b => w <<< 8 ||| b.setWidth 64) u).toNat = u.toNat * (2 ^ 8) ^ b.length + value b.reverse := by
    intro b
    induction b with
    | nil =>
      intro u k _ _
      simp
    | cons x b ih =>
      intro u k _ hk
      rw [length_cons] at hk
      have hx := x.isLt
      have hpow : (2 ^ 8) ^ k * 2 ^ 8 ≤ (2 ^ 64 : Nat) := by
        rw [← pow_succ, ← pow_mul]
        exact Nat.pow_le_pow_right (by omega) (by omega)
      have hnext : (u <<< 8 ||| x.setWidth 64).toNat = u.toNat * 2 ^ 8 + x.toNat := by
        rw [BitVec.toNat_or, BitVec.toNat_shiftLeft, toNat_byte, Nat.shiftLeft_eq, Nat.mod_eq_of_lt (by omega),
          mul_comm, ← Nat.two_pow_add_eq_or_of_lt hx]
      rw [foldl_cons, ih _ (k + 1) (by rw [hnext, pow_succ _ k]; omega) (by omega), hnext, value_reverse_cons,
        length_cons]
      ring
  unfold bigEndianUint
  rw [hfold b 0 0 (by decide) (by omega)]
  simp

theorem setBytes_low_spec (b : List (BitVec 8)) (u : Word) (hu : u.toNat < 2 ^ s) (hs : s + 8 * b.length ≤ 64)
    : (setBytes.low u s b).toNat = u.toNat + 2 ^ s * value b := by
  induction b generalizing u s with
  | nil => simp [setBytes.low]
  | cons x b ih =>
    rw [length_cons] at hs
    have hx := x.isLt
    have hpow : 2 ^ s * 2 ^ 8 ≤ (2 ^ 64 : Nat) := by
      rw [← pow_add]
      exact Nat.pow_le_pow_right (by omega) (by omega)
    have hmul : 2 ^ s * x.toNat + 2 ^ s ≤ 2 ^ s * 2 ^ 8 := by
      rw [← Nat.mul_succ]
      exact Nat.mul_le_mul_left _ hx
    have hnext : (u ||| x.setWidth 64 <<< s).toNat = u.toNat + 2 ^ s * x.toNat := by
      rw [BitVec.toNat_or, BitVec.toNat_shiftLeft, toNat_byte, Nat.shiftLeft_eq, mul_comm x.toNat,
        Nat.mod_eq_of_lt (by omega), Nat.or_comm, ← Nat.two_pow_add_eq_or_of_lt hu, add_comm]
    rw [setBytes.low, ih _ (by rw [hnext, pow_add]; omega) (by omega), hnext, value_cons, pow_add]
    ring

theorem setBytes_go_spec (n : Nat) (b : List (BitVec 8)) (hlen : b.length ≤ 8 * n)
    : ∃ x, setBytes.go (reset n) b = .ok x ∧ value x = value b := by
  induction n generalizing b with
  | zero =>
    have hnil : b = [] := eq_nil_of_length_eq_zero (by omega)
    exact ⟨[], by simp [reset, setBytes.go, hnil], by simp [hnil]⟩
  | succ n ih =>
    unfold reset
    rw [replicate_succ, setBytes.go]
    split
    . next hle =>
      obtain ⟨_, hgo, hvalue⟩ := ih (b.drop 8) (by rw [length_drop]; omega)
      refine ⟨_, by rw [show List.replicate n (0 : Word) = reset n from rfl, hgo]; rfl, ?_⟩
      rw [value_cons, bigEndianUint_spec _ (by simp), reverse_reverse, hvalue]
      exact value_take_add_drop b hle
    . next hlt =>
      refine ⟨_, rfl, ?_⟩
      rw [value_cons, setBytes_low_spec b 0 (s := 0) (by decide) (by omega), value_replicate_zero]
      simp

theorem resetToBytes_spec (b : List (BitVec 8))
    : ∃ x, resetToBytes b = some x ∧ value x = value b.reverse ∧ ∃ y, x = trim y := by
  obtain ⟨x, hset, hvalue⟩ := setBytes_go_spec ((b.length + 7) / 8) b.reverse (by rw [length_reverse]; omega)
  refine ⟨trim x, ?_, ?_, x, rfl⟩
  . unfold resetToBytes setBytes
    rw [hset]
  . unfold trim
    rw [value_rdropWhile, hvalue]

theorem value_cons_eq_zero_iff (a : Word) (x : List Word) : value (a :: x) = 0 ↔ a = 0 ∧ value x = 0 := by
  rw [value_cons, Nat.add_eq_zero_iff, ← BitVec.toNat_inj]
  simp

theorem fold_ctEq_zero (x : List Word) (hc : c = 0 ∨ c = 1)
    : x.foldl (fun zero limb => zero &&& ctEq limb 0) c = if value x = 0 then c else 0 := by
  induction x generalizing c with
  | nil => simp
  | cons a x ih =>
    have hand : c &&& ctEq a 0 = if a = 0 then c else 0 := by
      rw [ctEq_eq]
      rcases hc with hzero | hone
      . rw [hzero]
        simp
      . rw [hone]
        split <;> decide
    rw [foldl_cons, hand]
    simp only [value_cons_eq_zero_iff]
    split
    . next ha =>
      rw [ih hc]
      simp [ha]
    . next ha =>
      rw [ih (.inl rfl), ite_self, if_neg (fun h => ha h.1)]

theorem isZero_spec (x : List Word) : isZero x = 1 ↔ value x = 0 := by
  unfold isZero
  rw [fold_ctEq_zero x (.inr rfl)]
  simp

theorem isOne_spec (x : List Word) : isOne x = 1 ↔ value x = 1 := by
  cases x with
  | nil => simp [isOne]
  | cons a x =>
    have ha : a = 1 ↔ a.toNat = 1 := by
      rw [← BitVec.toNat_inj]
      rfl
    rw [isOne, ctEq_eq, fold_ctEq_zero x (by split <;> simp), value_cons]
    by_cases hx : value x = 0
    . by_cases hone : a = 1
      . rw [if_pos hx, if_pos hone, hx, ha.mp hone]
        simp
      . rw [if_pos hx, if_neg hone, hx, mul_zero, add_zero, ← ha]
        simpa using hone
    . rw [if_neg hx]
      simp
      omega

theorem isOdd_spec (x : List Word) : isOdd x = 1 ↔ value x % 2 = 1 := by
  cases x with
  | nil => simp [isOdd]
  | cons =>
    rw [isOdd, value_cons, ← BitVec.toNat_inj, BitVec.toNat_and, show (1 : Word).toNat = 1 from rfl,
      Nat.and_one_is_mod]
    omega

end Bigmod
