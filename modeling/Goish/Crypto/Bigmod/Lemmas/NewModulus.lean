import Goish.Crypto.Bigmod.Lemmas.Bytes
import Goish.Crypto.Bigmod.Lemmas.Exp

open List WordList

namespace Bigmod

open Bits Modulus

theorem one_sub_sq (x : Word) (hodd : x.toNat % 2 = 1) : ∃ z, 1 - x * x = 8 * z := by
  obtain ⟨j, hj⟩ : ∃ j, x.toNat / 2 * (x.toNat / 2 + 1) = 2 * j := (Nat.even_mul_succ_self _).two_dvd
  have hx : x = ((2 * (x.toNat / 2) + 1 : Nat) : Word) := by
    rw [show 2 * (x.toNat / 2) + 1 = x.toNat by omega]
    exact (BitVec.ofNat_toNat 64 x).symm
  have hcast := congrArg (fun n : Nat => (n : Word)) hj
  refine ⟨-(j : Word), ?_⟩
  simp only [Nat.cast_add, Nat.cast_mul, Nat.cast_ofNat, Nat.cast_one] at hcast hx
  rw [hx]
  linear_combination (-4) * hcast

theorem minusInverseModW_go_spec (k : Nat) (h : 1 - x * y = p * z)
    : ∃ z, 1 - x * minusInverseModW.go x k y = p ^ 2 ^ k * z := by
  induction k generalizing y p z with
  | zero => exact ⟨z, by simpa [minusInverseModW.go] using h⟩
  | succ k ih =>
    obtain ⟨z', hz'⟩ := ih (Montgomery.newton_step h)
    refine ⟨z', ?_⟩
    rw [minusInverseModW.go, hz', pow_succ', pow_mul, sq]

theorem minusInverseModW_spec (x : Word) (hodd : x.toNat % 2 = 1) : x * minusInverseModW x = -1 := by
  obtain ⟨_, hz⟩ := one_sub_sq x hodd
  obtain ⟨_, hz'⟩ := minusInverseModW_go_spec 5 hz
  have hzero : (8 : Word) ^ 2 ^ 5 = 0 := by decide
  rw [hzero, zero_mul] at hz'
  unfold minusInverseModW
  linear_combination hz'

theorem bitLen_spec (n : Word) (hn : n ≠ 0) : 0 < bitLen n ∧ bitLen n ≤ 64 ∧ 2 ^ (bitLen n - 1) ≤ n.toNat := by
  have hgo : ∀ (fuel : Nat) (n : Word), n ≠ 0 → n.toNat < 2 ^ fuel →
      0 < bitLen.go fuel n ∧ bitLen.go fuel n ≤ fuel ∧ 2 ^ (bitLen.go fuel n - 1) ≤ n.toNat := by
    intro fuel
    induction fuel with
    | zero =>
      intro n hn hlt
      exact absurd (BitVec.eq_of_toNat_eq (by simpa using hlt)) hn
    | succ fuel ih =>
      intro n hn _
      have hshift : (n >>> 1).toNat = n.toNat / 2 := by
        rw [BitVec.toNat_ushiftRight, Nat.shiftRight_eq_div_pow]
      have hpos : n.toNat ≠ 0 := fun hzero => hn (BitVec.eq_of_toNat_eq hzero)
      rw [bitLen.go, if_pos hn, Nat.add_sub_cancel]
      by_cases hrest : n >>> 1 = 0
      . have hzero : bitLen.go fuel (n >>> 1) = 0 := by
          rw [hrest]
          cases fuel <;> simp [bitLen.go]
        rw [hzero, pow_zero]
        omega
      obtain ⟨hlen, hle, hpow⟩ := ih (n >>> 1) hrest (by rw [hshift]; omega)
      have hdouble : 2 ^ bitLen.go fuel (n >>> 1) = 2 ^ (bitLen.go fuel (n >>> 1) - 1) * 2 := by
        rw [← pow_succ]
        congr 1
        omega
      omega
  exact hgo 64 n hn n.isLt

theorem bitLenVarTime_append (l : List Word) (hn : n ≠ 0) : bitLenVarTime (l ++ [n]) = l.length * 64 + bitLen n := by
  unfold bitLenVarTime
  rw [reverse_append, reverse_singleton, singleton_append, bitLenVarTime.go, if_pos hn,
    length_reverse]

section Factor

variable {m : Modulus} {x : List Word}

theorem double_spec (k : Nat) (hx : m.Reduced x)
    : ∃ r, double m k x = some r ∧ m.Reduced r ∧ value r = value x * 2 ^ k % value m.nat := by
  induction k generalizing x with
  | zero =>
    refine ⟨x, rfl, hx, ?_⟩
    rw [pow_zero, mul_one, Nat.mod_eq_of_lt hx.lt]
  | succ k ih =>
    obtain ⟨_, hadd, hs, hvalue⟩ := Modulus.add_spec hx hx
    obtain ⟨r, hdouble, hr, hrvalue⟩ := ih hs
    refine ⟨r, ?_, hr, ?_⟩
    . rwa [double, hadd]
    . rw [hrvalue, hvalue, show value x * 2 ^ (k + 1) = (value x + value x) * 2 ^ k by ring]
      exact (Nat.mod_modEq _ _).mul_right _

theorem double_stands (hm : m.Montgomery) (k : Nat) (hx : m.Stands b x)
    : ∃ r, double m k x = some r ∧ m.Stands (b * 2 ^ k) r := by
  obtain ⟨r, hdouble, hr, hvalue⟩ := double_spec k hx.reduced
  refine ⟨r, hdouble, hr, ?_⟩
  unfold Modulus.repr
  rw [Montgomery.repr_eq_iff hm.coprime, hvalue, ZMod.natCast_mod, ← hx.repr, mul_right_comm]
  unfold Modulus.repr
  rw [Montgomery.repr_mul hm.coprime]
  push_cast
  rfl

theorem chainStart_spec (hlt : threshold < logR) (k : Nat) : ∃ i, chainStart logR threshold k = some i ∧ i < 64 := by
  induction k with
  | zero =>
    refine ⟨0, ?_, by omega⟩
    rw [chainStart, if_neg]
    simp [shrW]
    omega
  | succ k ih =>
    rw [chainStart]
    split
    . exact ih
    next hgt =>
    refine ⟨k + 1, rfl, ?_⟩
    apply Decidable.byContradiction
    intro _
    apply hgt
    unfold shrW
    rw [if_pos (by omega)]
    omega

theorem shrW_eq (hi : i < 64) : shrW logR i = logR / 2 ^ i := by
  unfold shrW
  rw [if_neg (by omega), Nat.shiftRight_eq_div_pow]

theorem squareChain_spec (hm : m.Montgomery) (logR i : Nat) (hi : i ≤ 64) (hx : m.Stands (2 ^ (logR / 2 ^ i)) x)
    : ∃ r, squareChain m logR i x = some r ∧ m.Stands (2 ^ logR) r := by
  induction i generalizing x with
  | zero =>
    refine ⟨x, rfl, ?_⟩
    simpa using hx
  | succ i ih =>
    obtain ⟨s, hmul, hs⟩ := hx.mul hm hx
    rw [← pow_add] at hs
    have hdiv : logR / 2 ^ i = logR / 2 ^ (i + 1) + logR / 2 ^ (i + 1) + logR / 2 ^ i % 2 := by
      rw [pow_succ, ← Nat.div_div_eq_div_mul]
      omega
    rw [squareChain, hmul]
    simp only [Option.bind_eq_bind, Option.bind_some]
    rw [shrW_eq (by omega), Nat.and_one_is_mod]
    split
    . next hne =>
      obtain ⟨t, hdouble, ht⟩ := double_stands hm 1 hs
      have hadd : m.add s s = some t := by
        rw [double] at hdouble
        cases hadd : m.add s s with
        | none => simp [hadd] at hdouble
        | some => simpa [hadd, double] using hdouble
      rw [← pow_add] at ht
      rw [hadd]
      apply ih (by omega)
      rwa [hdiv, show logR / 2 ^ i % 2 = 1 by omega]
    . next heq =>
      apply ih (by omega)
      rwa [hdiv, show logR / 2 ^ i % 2 = 0 by omega, add_zero]

section

variable (hm : m.Montgomery) (htop : m.nat = l ++ [n]) (hn : n ≠ 0)
include hm htop hn

theorem topBit_spec : 0 < m.bitLen ∧ m.bitLen ≤ 64 * m.size ∧
        m.Reduced ((reset m.size).set (m.size - 1) ((1 : Word) <<< ((m.bitLen - 1) % 64))) ∧
        value ((reset m.size).set (m.size - 1) ((1 : Word) <<< ((m.bitLen - 1) % 64))) = 2 ^ (m.bitLen - 1) := by
  obtain ⟨_, _, hpow⟩ := bitLen_spec n hn
  have hbits : m.bitLen = l.length * 64 + bitLen n := by
    unfold Modulus.bitLen
    rw [htop, bitLenVarTime_append l hn]
  have hsize : m.size = l.length + 1 := by
    unfold Modulus.size
    rw [htop, length_append, length_singleton]
  have hset : (reset m.size).set (m.size - 1) ((1 : Word) <<< ((m.bitLen - 1) % 64)) =
      reset l.length ++ [(1 : Word) <<< (bitLen n - 1)] := by
    have hmod : (m.bitLen - 1) % 64 = bitLen n - 1 := by omega
    unfold reset
    rw [hmod, hsize, Nat.add_sub_cancel, replicate_succ', set_append_right _ _ (by simp)]
    simp
  have hone : ((1 : Word) <<< (bitLen n - 1)).toNat = 2 ^ (bitLen n - 1) := by
    rw [BitVec.toNat_shiftLeft, Nat.shiftLeft_eq, show (1 : Word).toNat = 1 from rfl, one_mul]
    exact Nat.mod_eq_of_lt (Nat.pow_lt_pow_right (by omega) (by omega))
  have hvalue : value (reset l.length ++ [(1 : Word) <<< (bitLen n - 1)]) = 2 ^ (m.bitLen - 1) := by
    rw [value_append, value_reset, length_reset, value_cons, value_nil, hone, mul_zero, add_zero, zero_add,
      ← pow_mul, ← pow_add]
    congr 1
    omega
  have hM : value m.nat = value l + (2 ^ 64) ^ l.length * n.toNat := by
    rw [htop, value_append, value_cons, value_nil, mul_zero, add_zero]
  rw [hset, hvalue]
  refine ⟨by omega, by omega, ⟨?_, ?_⟩, rfl⟩
  . rw [length_append, length_reset, hsize]
    rfl
  have hge : 2 ^ (m.bitLen - 1) ≤ value m.nat := by
    rw [hM, show m.bitLen - 1 = 64 * l.length + (bitLen n - 1) by omega, pow_add, pow_mul]
    have hmul := Nat.mul_le_mul_left ((2 ^ 64) ^ l.length) hpow
    omega
  have hodd := hm.odd
  have hone_lt := hm.one_lt
  rw [hvalue]
  apply lt_of_le_of_ne hge
  intro heq
  cases hk : m.bitLen - 1 with
  | zero =>
    rw [hk, pow_zero] at heq
    omega
  | succ =>
    rw [hk, pow_succ] at heq
    omega

theorem rr_spec : ∃ r, rr m = some r ∧ m.Stands ((2 ^ 64) ^ m.size : Nat) r := by
  obtain ⟨_, _, hreduced, hvalue⟩ := topBit_spec hm htop hn
  obtain ⟨x, hdouble, hx, hxvalue⟩ := double_spec (64 * m.size - (m.bitLen - 1)) hreduced
  have hR : 2 ^ (m.bitLen - 1) * 2 ^ (64 * m.size - (m.bitLen - 1)) = (2 ^ 64) ^ m.size := by
    rw [← pow_add, ← pow_mul]
    congr 1
    omega
  have hunit : m.Stands 1 x := by
    refine ⟨hx, ?_⟩
    unfold Modulus.repr
    rw [Montgomery.repr_eq_iff hm.coprime, hxvalue, hvalue, hR, ZMod.natCast_mod, one_mul]
  obtain ⟨i, hstart, hi⟩ := chainStart_spec (show m.size / 4 < 64 * m.size by omega) 64
  obtain ⟨_, hdouble', hy⟩ := double_stands hm (shrW (64 * m.size) i) hunit
  rw [one_mul, shrW_eq hi] at hy
  obtain ⟨r, hchain, hr⟩ := squareChain_spec hm (64 * m.size) i (by omega) hy
  refine ⟨r, ?_, ?_⟩
  . unfold rr
    rw [if_neg (by omega)]
    simp only [hdouble, hstart, hdouble', Option.bind_eq_bind, Option.bind_some]
    exact hchain
  . rwa [← pow_mul, Nat.cast_pow, Nat.cast_ofNat]

end

end Factor

theorem newModulus_spec (htrim : n = trim y) (hlt : 1 < value n)
    : ∃ m, newModulus n = some (.ok m) ∧ m.nat = n ∧ m.Valid ∧ (m.odd = true ↔ value n % 2 = 1) ∧
        (m.odd = true → m.Ready) := by
  have hvalue : value n = value y := by
    rw [htrim]
    exact value_rdropWhile y
  obtain ⟨l, top, heq, htop⟩ := rdropWhile_eq_append (show 0 < value y by omega)
  have hn : n = l ++ [top] := htrim.trans heq
  have htoplt : 0 < top.toNat := Nat.pos_of_ne_zero fun hzero => htop (BitVec.eq_of_toNat_eq hzero)
  have hvalid : ∀ odd m0inv rr, Modulus.Valid { nat := n, odd := odd, m0inv := m0inv, rr := rr } := by
    intro _ _ _
    refine ⟨hlt, ?_, ?_⟩
    . unfold Modulus.size
      simp [hn]
    unfold Modulus.size
    have hmul := Nat.mul_le_mul_left ((2 ^ 64) ^ l.length) htoplt
    simp only [hn, length_append, length_singleton, Nat.add_sub_cancel]
    rw [value_append, value_cons, value_nil, mul_zero, add_zero]
    omega
  unfold newModulus
  dsimp only
  rw [if_neg (by rw [isZero_spec, isOne_spec]; omega)]
  split
  . next hodd =>
    rw [isOdd_spec] at hodd
    have hhead : (n.headD 0).toNat % 2 = 1 := by
      rw [← value_mod_word (by simp [hn])]
      omega
    have hmont : Modulus.Montgomery { nat := n, odd := true, m0inv := minusInverseModW (n.headD 0), rr := none } :=
      { toValid := hvalid _ _ _, odd := hodd, inv := minusInverseModW_spec _ hhead }
    obtain ⟨r, hrr, hr⟩ := rr_spec hmont hn htop
    rw [hrr]
    refine ⟨_, rfl, rfl, hvalid _ _ _, by simpa using hodd, fun _ => ?_⟩
    exact { toValid := hvalid _ _ _, odd := hodd, inv := minusInverseModW_spec _ hhead,
            rr := ⟨r, rfl, ⟨hr.reduced.length, hr.reduced.lt⟩, hr.repr⟩ }
  . next hodd =>
    rw [isOdd_spec] at hodd
    exact ⟨_, rfl, rfl, hvalid _ _ _, by simpa using hodd, by simp⟩

end Bigmod
