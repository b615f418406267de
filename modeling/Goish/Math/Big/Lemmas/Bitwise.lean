import Goish.Math.Big.Lemmas.Limbs

open List Limbs Nat

namespace Big

variable {x y : List UInt32}

section

variable (x : List UInt32) (s : Nat)

theorem lshLimbs_value : value (lshLimbs x s) = value x * 2 ^ s := by
  have hshifted : value (if s % 32 = 0 then x else shlSmall x (s % 32)) = value x * 2 ^ (s % 32) := by
    split
    . next hzero => rw [hzero, pow_zero, mul_one]
    . exact shlSmall_value x (mod_lt _ (by omega))
  have hpow : 2 ^ s = 2 ^ (32 * (s / 32)) * 2 ^ (s % 32) := by rw [← pow_add, Nat.div_add_mod]
  unfold lshLimbs
  split
  . next hnil => simp [hnil]
  dsimp only
  split
  . next hlow =>
    rw [value_trim, hshifted, hpow, hlow, mul_zero, pow_zero, one_mul]
  . rw [value_trim, value_append, value_replicate_zero, length_replicate, hshifted, hpow]
    ring

theorem lshLimbs_canonical : Canonical (lshLimbs x s) := by
  unfold lshLimbs
  split
  . exact canonical_nil
  . dsimp only
    split
    all_goals exact canonical_trim _

theorem rshLimbs_value : value (rshLimbs x s) = value x / 2 ^ s := by
  have hpow : 2 ^ s = 2 ^ (32 * (s / 32)) * 2 ^ (s % 32) := by rw [← pow_add, Nat.div_add_mod]
  unfold rshLimbs
  split
  . next hnil => simp [hnil]
  dsimp only
  rw [hpow, ← Nat.div_div_eq_div_mul, ← value_drop]
  split
  . next hge => rw [drop_eq_nil_of_le hge, value_nil, Nat.zero_div]
  . rw [value_trim]
    split
    . next hzero => rw [hzero, pow_zero, Nat.div_one]
    . exact shrSmall_value _ (Nat.mod_lt _ (by omega))

theorem rshLimbs_canonical : Canonical (rshLimbs x s) := by
  unfold rshLimbs
  split
  . exact canonical_nil
  . dsimp only
    split
    . exact canonical_nil
    . exact canonical_trim _

end

section Bits

variable {f : UInt32 → UInt32 → UInt32}

theorem getD_zipWith (hleft : ∀ u, f u 0 = 0) (hright : ∀ v, f 0 v = 0) (j : Nat)
    : (List.zipWith f x y).getD j 0 = f (x.getD j 0) (y.getD j 0) := by
  induction x generalizing y j with
  | nil => simp [hright]
  | cons u x ih =>
    cases y with
    | nil => simp [hleft]
    | cons =>
      cases j with
      | zero => simp
      | succ j =>
        rw [zipWith_cons_cons, getD_cons_succ, getD_cons_succ, getD_cons_succ]
        exact ih j

theorem getD_zipWith_append (hleft : ∀ u, f u 0 = u) (hright : y.length ≤ x.length ∨ ∀ v, f 0 v = 0) (j : Nat)
    : (List.zipWith f x y ++ x.drop y.length).getD j 0 = f (x.getD j 0) (y.getD j 0) := by
  induction x generalizing y j with
  | nil =>
    rcases hright with hlen | hzero
    . have hy : y = [] := length_eq_zero_iff.mp (by simpa using hlen)
      simp [hy, hleft]
    . simp [hzero]
  | cons u x ih =>
    cases y with
    | nil => simp [hleft]
    | cons =>
      cases j with
      | zero => simp
      | succ j =>
        rw [zipWith_cons_cons, cons_append, getD_cons_succ, getD_cons_succ, getD_cons_succ,
          length_cons, drop_succ_cons]
        exact ih (hright.imp_left le_of_succ_le_succ) j

theorem testBit_andNot (u v : UInt32) (hi : i < 32)
    : (u &&& ~~~v).toNat.testBit i = (u.toNat.testBit i && !v.toNat.testBit i) := by
  have hnot : (~~~v).toNat.testBit i = !v.toNat.testBit i := by
    rw [UInt32.toNat_not, Nat.sub_sub, add_comm 1]
    exact (Nat.testBit_two_pow_sub_succ v.toNat_lt i).trans (by simp [hi])
  rw [UInt32.toNat_and, Nat.testBit_and, hnot]

theorem andLimbs_value (x y : List UInt32) : value (andLimbs x y) = value x &&& value y := by
  apply eq_of_testBit_eq
  intro i
  unfold andLimbs
  rw [value_trim, testBit_value, getD_zipWith (by simp) (by simp), UInt32.toNat_and, testBit_and,
    testBit_and, testBit_value, testBit_value]

theorem andNotLimbs_value (x y : List UInt32) : value (andNotLimbs x y) = ldiff (value x) (value y) := by
  apply eq_of_testBit_eq
  intro i
  unfold andNotLimbs
  rw [value_trim, testBit_value, getD_zipWith_append (by simp) (.inr (by simp)),
    testBit_andNot _ _ (mod_lt _ (by omega)), testBit_ldiff, testBit_value, testBit_value]

theorem testBit_overLonger (hleft : ∀ u, f u 0 = u) (hright : ∀ v, f 0 v = v) : (value (overLonger f x y)).testBit i =
        (f (x.getD (i / 32) 0) (y.getD (i / 32) 0)).toNat.testBit (i % 32) := by
  unfold overLonger
  rcases lt_or_ge x.length y.length with hlt | hge
  . rw [if_pos hlt]
    rw [value_trim, testBit_value, zipWith_comm, getD_zipWith_append hright (.inl hlt.le)]
  . rw [if_neg (by omega)]
    rw [value_trim, testBit_value, getD_zipWith_append hleft (.inl hge)]

section

variable (x y : List UInt32)

theorem orLimbs_value : value (orLimbs x y) = value x ||| value y := by
  apply eq_of_testBit_eq
  intro i
  unfold orLimbs
  rw [testBit_overLonger (by simp) (by simp), UInt32.toNat_or, testBit_or, testBit_or, testBit_value,
    testBit_value]

theorem xorLimbs_value : value (xorLimbs x y) = value x ^^^ value y := by
  apply eq_of_testBit_eq
  intro i
  unfold xorLimbs
  rw [testBit_overLonger (by simp) (by simp), UInt32.toNat_xor, testBit_xor, testBit_xor, testBit_value,
    testBit_value]

theorem andLimbs_canonical : Canonical (andLimbs x y) :=
  canonical_trim _

theorem andNotLimbs_canonical : Canonical (andNotLimbs x y) :=
  canonical_trim _

theorem orLimbs_canonical : Canonical (orLimbs x y) :=
  canonical_trim _

theorem xorLimbs_canonical : Canonical (xorLimbs x y) :=
  canonical_trim _

end

end Bits

theorem testBit_mask (hk : k < 32) : ((1 : UInt32) <<< UInt32.ofNat k).toNat.testBit t = decide (k = t) := by
  have hpow : 2 ^ k < 2 ^ 32 := Nat.pow_lt_pow_right (by omega) hk
  rw [UInt32.toNat_shiftLeft, UInt32.toNat_ofNat', Nat.mod_eq_of_lt (a := k) (by omega), Nat.mod_eq_of_lt hk,
    UInt32.toNat_one, Nat.one_shiftLeft, Nat.mod_eq_of_lt hpow, Nat.testBit_two_pow]

theorem getD_modify (g : UInt32 → UInt32) (hzero : g 0 = 0 ∨ j < x.length)
    : (x.modify j g).getD k 0 = if j = k then g (x.getD k 0) else x.getD k 0 := by
  rw [getD_eq_getElem?_getD, List.getElem?_modify, getD_eq_getElem?_getD]
  split
  . next heq =>
    cases hx : x[k]? with
    | some => rfl
    | none =>
      have hlen := List.getElem?_eq_none_iff.mp hx
      rcases hzero with hzero | _
      . simp [hzero]
      . omega
  . simp

theorem decide_eq_limb (i t : Nat) : decide (i = t) = (decide (i / 32 = t / 32) && decide (i % 32 = t % 32)) := by
  rw [← Bool.decide_and, decide_eq_decide]
  omega

section

variable (x : List UInt32) (i : Nat)

theorem limbSetBit_zero_value : value (limbSetBit x i 0) = ldiff (value x) (2 ^ i) := by
  apply eq_of_testBit_eq
  intro t
  unfold limbSetBit
  rw [if_pos rfl, value_trim, testBit_value, getD_modify _ (.inl (by simp)), testBit_ldiff,
    testBit_two_pow, decide_eq_limb, testBit_value]
  split
  . next heq =>
    rw [testBit_andNot _ _ (mod_lt _ (by omega)), testBit_mask (mod_lt _ (by omega)),
      decide_eq_true heq, Bool.true_and]
  . next hne => rw [decide_eq_false hne, Bool.false_and, Bool.not_false, Bool.and_true]

theorem limbSetBit_one_value : value (limbSetBit x i 1) = value x ||| 2 ^ i := by
  have hpad : value (x ++ List.replicate (i / 32 + 1 - x.length) 0) = value x := by
    rw [value_append, value_replicate_zero, mul_zero, add_zero]
  apply eq_of_testBit_eq
  intro t
  unfold limbSetBit
  rw [if_neg (by decide), value_trim, testBit_value, getD_modify _ (.inr (by simp; omega)), testBit_or,
    testBit_two_pow, decide_eq_limb, ← hpad, testBit_value]
  split
  . next heq =>
    rw [UInt32.toNat_or, testBit_or, testBit_mask (mod_lt _ (by omega)),
      decide_eq_true heq, Bool.true_and]
  . next hne => rw [decide_eq_false hne, Bool.false_and, Bool.or_false]

theorem limbSetBit_canonical (b : UInt64) : Canonical (limbSetBit x i b) := by
  unfold limbSetBit
  split
  all_goals exact canonical_trim _

end

end Big
