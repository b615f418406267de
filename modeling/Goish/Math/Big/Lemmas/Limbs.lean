import Goish.Data.Limbs
import Goish.Math.Big.Impl.Limbs

open List Limbs UInt32 Nat

namespace Big

variable {a b l un dn : List UInt32}

theorem canonical_trim (l : List UInt32) : Canonical (trim l) :=
  canonical_rdropWhile l

theorem value_trim (l : List UInt32) : value (trim l) = value l :=
  value_rdropWhile l

theorem value_headD_tail (l : List UInt32) : (l.headD 0).toNat + 2 ^ 32 * value l.tail = value l := by
  cases l <;> simp

theorem shiftRight_eq (n : Nat) : n >>> 32 = n / 2 ^ 32 :=
  shiftRight_eq_div_pow n 32

theorem or_eq_add (hi : Nat) (hlo : lo < 2 ^ 32) (hhi : hi < 2 ^ 32)
    : (hi <<< 32) % 2 ^ 64 ||| lo = hi * 2 ^ 32 + lo := by
  have hlt : hi * 2 ^ 32 < 2 ^ 64 := by omega
  rw [mod_eq_of_lt (by rw [shiftLeft_eq]; exact hlt), ← shiftLeft_add_eq_or_of_lt hlo,
    shiftLeft_eq]

theorem toNat_ofInt (d : ℤ) : ((ofInt d).toNat : ℤ) = d % 2 ^ 32 := by
  unfold ofInt
  rw [toNat_ofNat']
  omega

theorem u64ToLimbs_value (x : UInt64) : value (u64ToLimbs x) = x.toNat := by
  have hx := x.toNat_lt
  unfold u64ToLimbs
  split
  . next hzero => simp [hzero]
  split
  . next hle =>
    have hle : x.toNat ≤ 0xffffffff := UInt64.le_iff_toNat_le.mp hle
    rw [value_singleton, UInt64.toNat_toUInt32]
    omega
  . rw [value_cons, value_singleton, UInt64.toNat_toUInt32, UInt64.toNat_toUInt32, UInt64.toNat_shiftRight,
      shiftRight_eq_div_pow, show (32 : UInt64).toNat % 64 = 32 from rfl]
    omega

theorem u64ToLimbs_canonical (x : UInt64) : Canonical (u64ToLimbs x) := by
  have hx := x.toNat_lt
  unfold u64ToLimbs
  split
  . exact canonical_nil
  next hne =>
  have hne : x.toNat ≠ 0 := by
    intro hzero
    exact hne (UInt64.toNat_inj.mp hzero)
  split
  . next hle =>
    have hle : x.toNat ≤ 0xffffffff := UInt64.le_iff_toNat_le.mp hle
    simp only [Canonical, List.getLast?_singleton, Ne, Option.some.injEq, ← UInt32.toNat_inj, UInt64.toNat_toUInt32]
    rw [UInt32.toNat_zero]
    omega
  next hgt =>
  have hgt : 0xffffffff < x.toNat := by
    rwa [UInt64.le_iff_toNat_le, not_le] at hgt
  simp only [Canonical, List.getLast?_cons_cons, List.getLast?_singleton, Ne, Option.some.injEq,
    ← UInt32.toNat_inj, UInt64.toNat_toUInt32, UInt64.toNat_shiftRight, shiftRight_eq_div_pow]
  rw [UInt32.toNat_zero, show (32 : UInt64).toNat % 64 = 32 from rfl]
  omega

theorem addLimbs.go_value (n : Nat) (ha : a.length ≤ n) (hb : b.length ≤ n) (hcarry : carry < 2 ^ 32)
    : value (go n a b carry) = value a + value b + carry := by
  induction n generalizing a b carry with
  | zero =>
    have ha : a = [] := length_eq_zero_iff.mp (by omega)
    have hb : b = [] := length_eq_zero_iff.mp (by omega)
    simp [go, ha, hb, toNat_ofNat']
    exact hcarry
  | succ n ih =>
    have hva := value_headD_tail a
    have hvb := value_headD_tail b
    have hx := (a.headD 0).toNat_lt
    have hy := (b.headD 0).toNat_lt
    have hs := toNat_ofNat_add ((a.headD 0).toNat + (b.headD 0).toNat + carry)
    rw [go, value_cons, ih (by simp; omega) (by simp; omega) (by rw [shiftRight_eq]; omega), shiftRight_eq]
    omega

theorem addLimbs_value (a b : List UInt32) : value (addLimbs a b) = value a + value b := by
  unfold addLimbs
  rw [value_trim, addLimbs.go_value _ (le_max_left _ _) (le_max_right _ _) (by omega), add_zero]

theorem addLimbs_canonical (a b : List UInt32) : Canonical (addLimbs a b) :=
  canonical_trim _

theorem subLimbs.go_value (hb : b.length ≤ a.length) (hborrow : borrow = 0 ∨ borrow = 1)
    : (go a b borrow).length = a.length ∧ ∃ e : ℤ, (e = 0 ∨ e = 1) ∧
        (value (go a b borrow) : ℤ) = value a - value b - borrow + 2 ^ (32 * a.length) * e := by
  induction a generalizing b borrow with
  | nil =>
    have hb : b = [] := length_eq_zero_iff.mp (by simpa using hb)
    refine ⟨rfl, borrow, hborrow, ?_⟩
    simp [go, hb]
  | cons x a ih =>
    have hvb := value_headD_tail b
    have hx := x.toNat_lt
    have hy := (b.headD 0).toNat_lt
    have hlen : b.tail.length ≤ a.length := by
      rw [length_tail]
      rw [length_cons] at hb
      omega
    have hpow : (2 : ℤ) ^ (32 * (a.length + 1)) = 2 ^ 32 * 2 ^ (32 * a.length) := by ring
    unfold go
    dsimp only
    split
    . next hneg =>
      obtain ⟨hlength, e, he, _⟩ := ih hlen (.inr rfl)
      refine ⟨by simp [hlength], e, he, ?_⟩
      have hd := toNat_ofInt ((x.toNat : ℤ) - (b.headD 0).toNat - borrow + 2 ^ 32)
      rw [value_cons, value_cons, length_cons, hpow, Int.mul_assoc]
      omega
    . next hpos =>
      obtain ⟨hlength, e, he, _⟩ := ih hlen (.inl rfl)
      refine ⟨by simp [hlength], e, he, ?_⟩
      have hd := toNat_ofInt ((x.toNat : ℤ) - (b.headD 0).toNat - borrow)
      rw [value_cons, value_cons, length_cons, hpow, Int.mul_assoc]
      omega

theorem subLimbs_value (hb : b.length ≤ a.length) (hle : value b ≤ value a)
    : value (subLimbs a b) = value a - value b := by
  obtain ⟨hlength, _, he, hvalue⟩ := subLimbs.go_value hb (.inl rfl)
  have hlt := value_lt (subLimbs.go a b 0)
  rw [hlength] at hlt
  unfold subLimbs
  rw [value_trim]
  rcases he with hzero | hone
  . rw [hzero] at hvalue
    omega
  . have hpow : ((2 ^ (32 * a.length) : Nat) : ℤ) = 2 ^ (32 * a.length) := by push_cast; rfl
    rw [hone, ← hpow] at hvalue
    omega

theorem subLimbs_canonical (a b : List UInt32) : Canonical (subLimbs a b) :=
  canonical_trim _

theorem prod_lt (x y : UInt32) (ho : o < 2 ^ 32) (hcarry : carry < 2 ^ 32)
    : x.toNat * y.toNat + o + carry < 2 ^ 64 := by
  have hx := x.toNat_lt
  have hy := y.toNat_lt
  have hmul : x.toNat * y.toNat ≤ (2 ^ 32 - 1) * (2 ^ 32 - 1) := Nat.mul_le_mul (by omega) (by omega)
  omega

theorem mulLimbs.row_value (ai : UInt32) (hlen : o.length = b.length) (hcarry : carry < 2 ^ 32)
    : ∃ r, row ai b (o ++ 0 :: z) carry = r ++ z ∧ r.length = b.length + 1 ∧
        value r = value o + ai.toNat * value b + carry := by
  induction b generalizing o carry with
  | nil =>
    have ho : o = [] := length_eq_zero_iff.mp hlen
    refine ⟨[ofNat carry], ?_, rfl, ?_⟩
    . simp [row, ho]
    . simp [ho, toNat_ofNat']
      exact hcarry
  | cons bj b ih =>
    rcases o with _ | ⟨x, o⟩
    . contradiction
    have hprod := prod_lt ai bj x.toNat_lt hcarry
    have hdiv := toNat_ofNat_add (ai.toNat * bj.toNat + x.toNat + carry)
    have hnext : (ai.toNat * bj.toNat + x.toNat + carry) / 2 ^ 32 < 2 ^ 32 := by omega
    obtain ⟨r, hr, hrlen, hvalue⟩ := ih (o := o) (by simpa using hlen) hnext
    refine ⟨ofNat (ai.toNat * bj.toNat + x.toNat + carry) :: r, ?_, by simp [hrlen], ?_⟩
    . rw [cons_append, row, headD_cons, mod_eq_of_lt hprod, shiftRight_eq, tail_cons, hr]
      rfl
    . have hmul : ai.toNat * (bj.toNat + 2 ^ 32 * value b) =
          ai.toNat * bj.toNat + 2 ^ 32 * (ai.toNat * value b) := by ring
      rw [value_cons, value_cons, value_cons, hvalue, hmul]
      omega

theorem mulLimbs.go_value (hlen : o.length = b.length)
    : value (go b a (o ++ List.replicate a.length 0)) = value o + value a * value b := by
  induction a generalizing o with
  | nil => simp [go]
  | cons ai a ih =>
    obtain ⟨r, hr, hrlen, hvalue⟩ :=
      row_value (z := List.replicate a.length 0) ai hlen (Nat.two_pow_pos 32)
    rcases r with _ | ⟨x, r⟩
    . contradiction
    have htail := ih (o := r) (by simpa using hrlen)
    rw [length_cons, replicate_succ, go, hr, cons_append, headD_cons, tail_cons,
      value_cons, htail]
    rw [value_cons] at hvalue
    rw [value_cons, add_mul, mul_add, mul_assoc]
    omega

theorem mulLimbs_value (a b : List UInt32) : value (mulLimbs a b) = value a * value b := by
  unfold mulLimbs
  split
  . next hnil =>
    rcases hnil with ha | hb
    . simp [ha]
    . simp [hb]
  . have hzero := value_replicate_zero b.length
    rw [value_trim, add_comm, replicate_add, mulLimbs.go_value (by simp), hzero, zero_add]

theorem mulLimbs_canonical (a b : List UInt32) : Canonical (mulLimbs a b) := by
  unfold mulLimbs
  split
  . exact canonical_nil
  . exact canonical_trim _

section Shift

variable {s : Nat}

theorem shlSmall.go_value (hs : s < 32) (hcarry : carry < 2 ^ s)
    : (go s a carry).length = a.length + 1 ∧ value (go s a carry) = value a * 2 ^ s + carry := by
  have hpow : 2 ^ s ≤ 2 ^ 31 := Nat.pow_le_pow_right (by omega) (by omega)
  induction a generalizing carry with
  | nil =>
    refine ⟨rfl, ?_⟩
    simp only [go, value_cons, value_nil, toNat_ofNat', mod_eq_of_lt (show carry < 2 ^ 32 by omega)]
    omega
  | cons x a ih =>
    have hx := x.toNat_lt
    have hmul : x.toNat * 2 ^ s + 2 ^ s ≤ 2 ^ 32 * 2 ^ s := by
      rw [← succ_mul]
      exact mul_le_mul_right _ hx
    have hv : (x.toNat <<< s) % 2 ^ 64 ||| carry = x.toNat * 2 ^ s + carry := by
      rw [mod_eq_of_lt (by rw [shiftLeft_eq]; omega), ← shiftLeft_add_eq_or_of_lt hcarry,
        shiftLeft_eq]
    have hdiv := toNat_ofNat_add (x.toNat * 2 ^ s + carry)
    have hnext : (x.toNat * 2 ^ s + carry) / 2 ^ 32 < 2 ^ s := Nat.div_lt_of_lt_mul (by omega)
    obtain ⟨hlen, hvalue⟩ := ih hnext
    rw [go, hv, shiftRight_eq]
    refine ⟨by rw [length_cons, hlen, length_cons], ?_⟩
    rw [value_cons, hvalue, value_cons, add_mul, mul_add, mul_assoc]
    omega

theorem shlSmall_value (a : List UInt32) (hs : s < 32) : value (shlSmall a s) = value a * 2 ^ s := by
  unfold shlSmall
  split
  . next hnil => simp [hnil]
  . split
    . next hzero => simp [hzero]
    . rw [value_trim, (shlSmall.go_value hs (Nat.two_pow_pos s)).2, add_zero]

theorem shlSmall_canonical (ha : Canonical a) : Canonical (shlSmall a s) := by
  unfold shlSmall
  split
  . exact canonical_nil
  . split
    . exact ha
    . exact canonical_trim _

theorem shrSmall.go_value (hs : s < 32) (hpos : 0 < s)
    : value (go s a).1 = value a / 2 ^ s ∧ (go s a).2.toNat = value a % 2 ^ s * 2 ^ (32 - s) := by
  have hpow : 2 ^ s * 2 ^ (32 - s) = 2 ^ 32 := by
    rw [← pow_add]
    congr 1
    omega
  have htwo : 0 < 2 ^ s := Nat.two_pow_pos s
  induction a with
  | nil => simp [go]
  | cons v a ih =>
    obtain ⟨hvalue, hcarry⟩ := ih
    have hv := v.toNat_lt
    have hmod : value (v :: a) % 2 ^ s = v.toNat % 2 ^ s := by
      rw [value_cons, ← hpow, mul_assoc, add_mul_mod_self_left]
    have hdiv : value (v :: a) / 2 ^ s = v.toNat / 2 ^ s + 2 ^ (32 - s) * value a := by
      rw [value_cons, ← hpow, mul_assoc, add_mul_div_left _ _ htwo]
    unfold go
    constructor
    . have hlow : v.toNat / 2 ^ s < 2 ^ (32 - s) := Nat.div_lt_of_lt_mul (by omega)
      have hor : (v >>> ofNat s ||| (go s a).2).toNat =
          2 ^ (32 - s) * (value a % 2 ^ s) + v.toNat / 2 ^ s := by
        rw [UInt32.toNat_or, UInt32.toNat_shiftRight, hcarry, UInt32.toNat_ofNat', Nat.or_comm,
          Nat.mod_eq_of_lt (a := s) (by omega), Nat.mod_eq_of_lt (a := s) hs, Nat.shiftRight_eq_div_pow,
          mul_comm, Nat.two_pow_add_eq_or_of_lt hlow]
      have hparts := mod_add_div (value a) (2 ^ s)
      rw [value_cons, hor, hvalue, hdiv]
      calc 2 ^ (32 - s) * (value a % 2 ^ s) + v.toNat / 2 ^ s + 2 ^ 32 * (value a / 2 ^ s)
        _ = v.toNat / 2 ^ s + 2 ^ (32 - s) * (value a % 2 ^ s + 2 ^ s * (value a / 2 ^ s)) := by
          rw [← hpow]
          ring
        _ = v.toNat / 2 ^ s + 2 ^ (32 - s) * value a := by rw [hparts]
    . rw [UInt32.toNat_shiftLeft, UInt32.toNat_ofNat', mod_eq_of_lt (a := 32 - s) (by omega),
        mod_eq_of_lt (a := 32 - s) (by omega), shiftLeft_eq, hmod, ← hpow, mul_mod_mul_right]

theorem shrSmall_value (a : List UInt32) (hs : s < 32) : value (shrSmall a s) = value a / 2 ^ s := by
  unfold shrSmall
  split
  . next hnil => simp [hnil]
  . split
    . next hzero => simp [hzero, value_trim]
    . rw [value_trim, (shrSmall.go_value hs (by omega)).1]

theorem shrSmall_canonical (a : List UInt32) (s : Nat) : Canonical (shrSmall a s) := by
  unfold shrSmall
  split
  . exact canonical_nil
  . split
    all_goals exact canonical_trim _

end Shift

theorem absCmp.go_eq (hlen : a.length = b.length) : go (a.reverse.zip b.reverse) = compare (value a) (value b) := by
  induction a using List.reverseRecOn generalizing b with
  | nil =>
    have hb : b = [] := length_eq_zero_iff.mp hlen.symm
    simp [hb, go]
  | append_singleton a x ih =>
    cases b using List.reverseRecOn with
    | nil => simp at hlen
    | append_singleton b y =>
      have hlen : a.length = b.length := by simpa using hlen
      have ha := value_lt a
      have hb := value_lt b
      rw [reverse_append, reverse_append, reverse_singleton, reverse_singleton,
        singleton_append, singleton_append, zip_cons_cons, go, ih hlen, value_append,
        value_append, ← hlen]
      rw [← hlen] at hb
      simp only [value_cons, value_nil, Nat.mul_zero, Nat.add_zero]
      rcases Nat.lt_trichotomy x.toNat y.toNat with hlt | heq | hgt
      . have hmul := Nat.mul_le_mul_left (2 ^ (32 * a.length)) hlt
        rw [Nat.compare_eq_lt.mpr hlt]
        refine (Nat.compare_eq_lt.mpr ?_).symm
        rw [Nat.mul_succ] at hmul
        omega
      . rw [heq, Nat.compare_eq_eq.mpr rfl]
        rcases Nat.lt_trichotomy (value a) (value b) with hlt' | heq' | hgt'
        . rw [Nat.compare_eq_lt.mpr hlt', Nat.compare_eq_lt.mpr (by omega)]
        . rw [heq', Nat.compare_eq_eq.mpr rfl, Nat.compare_eq_eq.mpr rfl]
        . rw [Nat.compare_eq_gt.mpr hgt', Nat.compare_eq_gt.mpr (by omega)]
      . have hmul := Nat.mul_le_mul_left (2 ^ (32 * a.length)) hgt
        rw [Nat.compare_eq_gt.mpr hgt]
        refine (Nat.compare_eq_gt.mpr ?_).symm
        rw [Nat.mul_succ] at hmul
        omega

theorem absCmp_eq (ha : Canonical a) (hb : Canonical b) : absCmp a b = compare (value a) (value b) := by
  unfold absCmp
  rcases lt_trichotomy a.length b.length with hlt | heq | hgt
  . rw [Nat.compare_eq_lt.mpr hlt, Nat.compare_eq_lt.mpr (hb.value_lt_of_length_lt hlt)]
  . rw [Nat.compare_eq_eq.mpr heq]
    exact absCmp.go_eq heq
  . rw [Nat.compare_eq_gt.mpr hgt, Nat.compare_eq_gt.mpr (ha.value_lt_of_length_lt hgt)]

section Small

variable {d : UInt32}

theorem divmodByU32.go_value (hd : d ≠ 0) (num : List UInt32)
    : value (go d num).1 * d.toNat + (go d num).2 = value num ∧ (go d num).2 < d.toNat := by
  have hpos : 0 < d.toNat := by
    apply pos_of_ne_zero
    intro hzero
    exact hd (UInt32.toNat_inj.mp hzero)
  have hd := d.toNat_lt
  induction num with
  | nil => exact ⟨by simp [go], hpos⟩
  | cons limb num ih =>
    obtain ⟨hvalue, hlt⟩ := ih
    have hlimb := limb.toNat_lt
    unfold go
    dsimp only
    generalize (go d num).1 = q at hvalue
    generalize (go d num).2 = r at hvalue hlt
    rw [or_eq_add r hlimb (by omega)]
    have hdigit : (r * 2 ^ 32 + limb.toNat) / d.toNat < 2 ^ 32 := by
      apply Nat.div_lt_of_lt_mul
      omega
    have hparts := Nat.div_add_mod (r * 2 ^ 32 + limb.toNat) d.toNat
    refine ⟨?_, Nat.mod_lt _ hpos⟩
    rw [value_cons, value_cons, toNat_ofNat_of_lt' hdigit, ← hvalue, add_mul, mul_assoc,
      mul_comm _ d.toNat]
    omega

theorem divmodByU32_value (hd : d ≠ 0) (num : List UInt32)
    : value (divmodByU32 num d).1 * d.toNat + (divmodByU32 num d).2.toNat = value num ∧
        (divmodByU32 num d).2.toNat < d.toNat ∧ Canonical (divmodByU32 num d).1 := by
  obtain ⟨hvalue, hlt⟩ := divmodByU32.go_value hd num
  have hr : (ofNat (divmodByU32.go d num).2).toNat = (divmodByU32.go d num).2 :=
    toNat_ofNat_of_lt' (lt_trans hlt d.toNat_lt)
  unfold divmodByU32
  rw [value_trim, hr]
  exact ⟨hvalue, hlt, canonical_trim _⟩

end Small

end Big
