import Goish.Data.LongDivision
import Goish.Math.Big.Lemmas.Limbs

open List Limbs UInt32

namespace Big

open LongDivision

variable {a b un dn w num den : List UInt32}

theorem refine_eq (hu : numHi = qhat * dnHi + rhat) (hlt : numHi < (dnHi + 1) * 2 ^ 32) (hlo : dnLo < 2 ^ 32)
    (hpos : 0 < dnHi) (hest : estimate (2 ^ 32) (numHi * 2 ^ 32 + u) (dnHi * 2 ^ 32 + dnLo) ≤ qhat)
    (hr : rhat < 2 ^ 32) (hu2 : u < 2 ^ 32) : refine dnHi dnLo u qhat rhat =
        estimate (2 ^ 32) (numHi * 2 ^ 32 + u) (dnHi * 2 ^ 32 + dnLo) := by
  have hv : 0 < dnHi * 2 ^ 32 + dnLo := by omega
  generalize hq : estimate (2 ^ 32) (numHi * 2 ^ 32 + u) (dnHi * 2 ^ 32 + dnLo) = q at hest ⊢
  -- An estimate that passes both tests is not too large.
  have hle (x y : Nat) (hx : x < 2 ^ 32) (hxy : numHi = x * dnHi + y) (htest : x * dnLo ≤ y * 2 ^ 32 + u)
      : x ≤ q := by
    rw [← hq]
    apply Nat.le_min.mpr
    refine ⟨?_, by omega⟩
    apply (Nat.le_div_iff_mul_le hv).mpr
    exact (test_iff hxy).mp htest
  have hfits (x : Nat) (hx : x < 2 ^ 32) : x * dnLo < 2 ^ 64 := by
    calc x * dnLo
      _ ≤ (2 ^ 32 - 1) * (2 ^ 32 - 1) := Nat.mul_le_mul (by omega) (by omega)
      _ < 2 ^ 64 := by omega
  induction qhat using Nat.strong_induction_on generalizing rhat with
  | _ qhat ih =>
    have hor := or_eq_add rhat hu2 hr
    unfold refine
    rw [hor]
    split
    . next hcond =>
      have hdec : q ≤ qhat - 1 ∧ qhat ≠ 0 := by
        rcases lt_or_ge qhat (2 ^ 32) with _ | _
        . have hmul := hfits qhat (by omega)
          have hgt : rhat * 2 ^ 32 + u < qhat * dnLo := by omega
          have hzero : qhat ≠ 0 := by
            intro hzero
            simp [hzero] at hgt
          have hnot : ¬ qhat * (dnHi * 2 ^ 32 + dnLo) ≤ numHi * 2 ^ 32 + u := by
            rw [← test_iff hu]
            omega
          rw [← Nat.le_div_iff_mul_le hv] at hnot
          have hmin : q ≤ (numHi * 2 ^ 32 + u) / (dnHi * 2 ^ 32 + dnLo) := by
            rw [← hq]
            exact Nat.min_le_left _ _
          omega
        . have hmin : q ≤ 2 ^ 32 - 1 := by
            rw [← hq]
            exact Nat.min_le_right _ _
          omega
      have hu' : numHi = (qhat - 1) * dnHi + (rhat + dnHi) := by
        have hsucc : qhat * dnHi = (qhat - 1) * dnHi + dnHi := by
          rw [← Nat.succ_mul, Nat.succ_eq_add_one, Nat.sub_add_cancel (Nat.pos_of_ne_zero hdec.2)]
        omega
      split
      . next hstop =>
        apply le_antisymm
        . have hdigit : qhat - 1 < 2 ^ 32 := by
            apply Nat.lt_of_mul_lt_mul_right (a := dnHi)
            omega
          apply hle _ _ hdigit hu'
          calc (qhat - 1) * dnLo
            _ ≤ 2 ^ 32 * 2 ^ 32 := Nat.mul_le_mul (by omega) (by omega)
            _ ≤ (rhat + dnHi) * 2 ^ 32 + u := by omega
        . exact hdec.1
      . next hgo => exact ih _ (by omega) hu' (by omega) hdec.1
    . next hcond =>
      apply le_antisymm
      . have hdigit : qhat < 2 ^ 32 := by omega
        have hmul := hfits qhat hdigit
        exact hle _ _ hdigit hu (by omega)
      . exact hest

theorem ofInt_sub_borrow {sub : ℤ} (hle : -2 ^ 32 ≤ sub) (hlt : sub < 2 ^ 32)
    : ((ofInt sub).toNat : ℤ) - 2 ^ 32 * (if sub < 0 then 1 else 0) = sub := by
  rw [toNat_ofInt]
  split
  all_goals omega

theorem mulSub_value (hq : qhat < 2 ^ 32) (hlen : un.length = dn.length + 1) (hcarry : carry < 2 ^ 32)
    (hborrow : borrow = 0 ∨ borrow = 1) : (mulSub qhat dn un carry borrow).1.length = un.length ∧
      ((mulSub qhat dn un carry borrow).2 = 0 ∨ (mulSub qhat dn un carry borrow).2 = 1) ∧
      (value (mulSub qhat dn un carry borrow).1 : ℤ) -
          2 ^ (32 * un.length) * (mulSub qhat dn un carry borrow).2 =
        value un - qhat * value dn - carry - borrow := by
  induction dn generalizing un carry borrow with
  | nil =>
    rcases un with _ | ⟨x, un⟩
    . contradiction
    have hun : un = [] := length_eq_zero_iff.mp (by simpa using hlen)
    have hx := x.toNat_lt
    have hlimb := ofInt_sub_borrow (show -2 ^ 32 ≤ (x.toNat - borrow - carry : ℤ) by omega) (by omega)
    rw [hun, mulSub, headD_cons, tail_cons]
    refine ⟨rfl, ?_, ?_⟩
    . dsimp only
      split
      . exact .inr rfl
      . exact .inl rfl
    . rw [value_cons, value_cons, value_nil, length_singleton]
      omega
  | cons d dn ih =>
    rcases un with _ | ⟨x, un⟩
    . contradiction
    have hx := x.toNat_lt
    have hp := prod_lt (ofNat qhat) d (Nat.two_pow_pos 32) hcarry
    rw [toNat_ofNat_of_lt' hq, add_zero] at hp
    have hparts := toNat_ofNat_add (qhat * d.toNat + carry)
    rw [mulSub, headD_cons, tail_cons, Nat.mod_eq_of_lt hp, shiftRight_eq]
    generalize hsub : (x.toNat - borrow - (ofNat (qhat * d.toNat + carry)).toNat : ℤ) = sub
    have hlimb := ofInt_sub_borrow (show -2 ^ 32 ≤ sub by omega) (by omega)
    have hborrow' : (if sub < 0 then 1 else 0 : ℤ) = 0 ∨ (if sub < 0 then 1 else 0 : ℤ) = 1 := by
      split
      . exact .inr rfl
      . exact .inl rfl
    generalize (if sub < 0 then 1 else 0 : ℤ) = borrow' at hlimb hborrow'
    have hnext : (qhat * d.toNat + carry) / 2 ^ 32 < 2 ^ 32 := by omega
    obtain ⟨hlength, hlast, hvalue⟩ := ih (Nat.succ.inj hlen) hnext hborrow'
    generalize mulSub qhat dn un ((qhat * d.toNat + carry) / 2 ^ 32) borrow' = res at hlength hlast hvalue
    cases res
    dsimp only at hlength hlast hvalue ⊢
    refine ⟨by rw [length_cons, hlength, length_cons], hlast, ?_⟩
    have hpow : (2 : ℤ) ^ (32 * (un.length + 1)) = 2 ^ 32 * 2 ^ (32 * un.length) := by ring
    have hmul : (qhat : ℤ) * ((d.toNat + 2 ^ 32 * value dn : Nat) : ℤ) =
        (qhat * d.toNat : Nat) + 2 ^ 32 * (qhat * value dn) := by
      push_cast
      ring
    rw [value_cons, value_cons, value_cons, length_cons, hpow, Int.mul_assoc, hmul]
    omega

theorem addBack_value (hlen : un.length = dn.length + 1) (hcarry : carry < 2 ^ 32)
    : (addBack dn un carry).length = un.length ∧
      ∃ e : Nat, value (addBack dn un carry) + 2 ^ (32 * un.length) * e = value un + value dn + carry := by
  induction dn generalizing un carry with
  | nil =>
    rcases un with _ | ⟨x, un⟩
    . contradiction
    have hun : un = [] := length_eq_zero_iff.mp (by simpa using hlen)
    refine ⟨rfl, (x.toNat + carry) / 2 ^ 32, ?_⟩
    rw [addBack, headD_cons, tail_cons, hun, value_cons, value_cons, value_nil,
      length_singleton, UInt32.toNat_add, UInt32.toNat_ofNat_of_lt' hcarry]
    omega
  | cons d _ ih =>
    rcases un with _ | ⟨x, un⟩
    . contradiction
    have hx := x.toNat_lt
    have hd := d.toNat_lt
    have hparts := toNat_ofNat_add (x.toNat + d.toNat + carry)
    rw [addBack, headD_cons, tail_cons, shiftRight_eq]
    have hnext : (x.toNat + d.toNat + carry) / 2 ^ 32 < 2 ^ 32 := by omega
    obtain ⟨hlength, e, _⟩ := ih (Nat.succ.inj hlen) hnext
    refine ⟨by rw [length_cons, hlength, length_cons], e, ?_⟩
    have hpow : 2 ^ (32 * (un.length + 1)) = 2 ^ 32 * 2 ^ (32 * un.length) := by ring
    rw [value_cons, value_cons, value_cons, length_cons, hpow, mul_assoc]
    omega

theorem value_append_two (l : List UInt32) (x y : UInt32)
    : value (l ++ [x, y]) = (y.toNat * 2 ^ 32 + x.toNat) * 2 ^ (32 * l.length) + value l := by
  rw [value_append, value_cons, value_cons, value_nil]
  ring

theorem value_append_three (l : List UInt32) (x y z : UInt32) : value (l ++ [x, y, z]) =
        ((z.toNat * 2 ^ 32 + y.toNat) * 2 ^ 32 + x.toNat) * 2 ^ (32 * l.length) + value l := by
  rw [value_append, value_cons, value_cons, value_cons, value_nil]
  ring

theorem exists_append_two (h : 2 ≤ a.length) : ∃ l x y, a = l ++ [x, y] := by
  obtain ⟨x, y, hdrop⟩ := length_eq_two.mp (show (a.drop (a.length - 2)).length = 2 by simp; omega)
  refine ⟨a.take (a.length - 2), x, y, ?_⟩
  rw [← hdrop, take_append_drop]

theorem exists_append_three (h : 3 ≤ a.length) : ∃ l x y z, a = l ++ [x, y, z] := by
  obtain ⟨x, y, z, hdrop⟩ := length_eq_three.mp (show (a.drop (a.length - 3)).length = 3 by simp; omega)
  refine ⟨a.take (a.length - 3), x, y, z, ?_⟩
  rw [← hdrop, take_append_drop]

def Normalised (dn : List UInt32) : Prop :=
  2 ≤ dn.length ∧ 2 ^ 31 * 2 ^ (32 * (dn.length - 1)) ≤ value dn

theorem Normalised.le_top (h : Normalised (l ++ [x, y])) : 2 ^ 31 ≤ y.toNat := by
  have hle := h.2
  have hlt := value_lt l
  have hx := x.toNat_lt
  have hpow : 2 ^ (32 * (l.length + 1)) = 2 ^ 32 * 2 ^ (32 * l.length) := by ring
  rw [value_append_two, length_append, show l.length + [x, y].length - 1 = l.length + 1 from rfl, hpow] at hle
  generalize 2 ^ (32 * l.length) = k at hle hlt
  apply Decidable.byContradiction
  intro _
  have hmul : (y.toNat * 2 ^ 32 + x.toNat + 1) * k ≤ 2 ^ 31 * 2 ^ 32 * k := Nat.mul_le_mul_right k (by omega)
  rw [add_mul, mul_assoc] at hmul
  omega

theorem mulSub_mod (hle : value w / value dn ≤ qhat) (hge : qhat ≤ value w / value dn + 1) (hq : qhat < 2 ^ 32)
    (hlen : w.length = dn.length + 1) (hpos : 0 < value dn) : (mulSub qhat dn w 0 0).1.length = w.length ∧
      ((mulSub qhat dn w 0 0).2 = 0 →
        qhat = value w / value dn ∧ value (mulSub qhat dn w 0 0).1 = value w % value dn) ∧
      ((mulSub qhat dn w 0 0).2 ≠ 0 →
        qhat = value w / value dn + 1 ∧
          value (addBack dn (mulSub qhat dn w 0 0).1 0) = value w % value dn) := by
  obtain ⟨hlength, hlast, hvalue⟩ := mulSub_value hq hlen (Nat.two_pow_pos 32) (.inl rfl)
  generalize mulSub qhat dn w 0 0 = res at hlength hlast hvalue
  obtain ⟨hblen, e, hback⟩ := addBack_value (show res.1.length = dn.length + 1 by omega) (Nat.two_pow_pos 32)
  have hres := value_lt res.1
  have hbacklt := value_lt (addBack dn res.1 0)
  have hdn : value dn < 2 ^ (32 * w.length) := by
    calc value dn
      _ < 2 ^ (32 * dn.length) := value_lt dn
      _ ≤ 2 ^ (32 * w.length) := Nat.pow_le_pow_right (by omega) (by omega)
  have hmod := Nat.mod_lt (value w) hpos
  have hparts := Nat.div_add_mod (value w) (value dn)
  have hpow : ((2 ^ (32 * w.length) : Nat) : ℤ) = 2 ^ (32 * w.length) := by
    push_cast
    rfl
  rw [hblen, hlength] at hbacklt
  rw [hlength] at hres hback
  rw [← hpow] at hvalue
  generalize 2 ^ (32 * w.length) = k at hres hbacklt hdn hvalue hback
  generalize value w / value dn = q at hle hge hparts ⊢
  generalize value w % value dn = r at hmod hparts ⊢
  have hmul : (qhat : ℤ) * value dn = (value dn * qhat : Nat) := by
    push_cast
    ring
  rw [hmul] at hvalue
  refine ⟨hlength, ?_, ?_⟩
  . intro hzero
    rw [hzero] at hvalue
    rcases eq_or_lt_of_le hle with heq | _
    . rw [← heq] at hvalue ⊢
      exact ⟨rfl, by omega⟩
    . have heq : qhat = q + 1 := by omega
      rw [heq, Nat.mul_succ] at hvalue
      omega
  intro _
  have hone : res.2 = 1 := by omega
  rw [hone] at hvalue
  rcases eq_or_lt_of_le hle with heq | _
  . rw [← heq] at hvalue
    omega
  have heq : qhat = q + 1 := by omega
  rw [heq, Nat.mul_succ] at hvalue
  refine ⟨heq, ?_⟩
  have he : e = 1 := by
    rcases e with _ | _ | e
    . omega
    . rfl
    . have hle := Nat.mul_le_mul_left k (show 2 ≤ e + 1 + 1 by omega)
      omega
  rw [he] at hback
  omega

theorem getD_append_length (l l' : List UInt32) (i : Nat) : (l ++ l').getD (l.length + i) 0 = l'.getD i 0 := by
  rw [getD_append_right _ _ _ _ (by omega), Nat.add_sub_cancel_left]

theorem divStep_value (hn : Normalised dn) (hlen : w.length = dn.length + 1) (hlt : value w < 2 ^ 32 * value dn)
    : (divStep dn w).1.toNat = value w / value dn ∧ (divStep dn w).2.length = w.length ∧
        value (divStep dn w).2 = value w % value dn := by
  obtain ⟨d, v2, v1, rfl⟩ := exists_append_two hn.1
  obtain ⟨u, u2, u1, u0, rfl⟩ := exists_append_three (a := w) (by simp at hlen; omega)
  have hlength : u.length = d.length := by simpa using hlen
  have hv1 := hn.le_top
  have hu := value_lt u
  have hd := value_lt d
  have hpos : 0 < value (d ++ [v2, v1]) := by omega
  rw [hlength] at hu
  have hnumHi := or_eq_add u0.toNat u1.toNat_lt u0.toNat_lt
  -- The leading digit of the window is not larger than the one of the divisor.
  have htop : u0.toNat * 2 ^ 32 + u1.toNat < (v1.toNat + 1) * 2 ^ 32 := by
    have hv2 := v2.toNat_lt
    rw [value_append_three, value_append_two, hlength] at hlt
    generalize 2 ^ (32 * d.length) = k at hlt hd
    apply Nat.lt_of_mul_lt_mul_right (a := 2 ^ 32 * k)
    calc (u0.toNat * 2 ^ 32 + u1.toNat) * (2 ^ 32 * k)
      _ ≤ ((u0.toNat * 2 ^ 32 + u1.toNat) * 2 ^ 32 + u2.toNat) * k + value u := by
        rw [add_mul _ u2.toNat, mul_assoc _ (2 ^ 32) k]
        omega
      _ < 2 ^ 32 * ((v1.toNat * 2 ^ 32 + v2.toNat) * k + value d) := hlt
      _ ≤ 2 ^ 32 * ((v1.toNat + 1) * 2 ^ 32 * k) := by
        apply Nat.mul_le_mul_left
        calc (v1.toNat * 2 ^ 32 + v2.toNat) * k + value d
          _ ≤ (v1.toNat * 2 ^ 32 + v2.toNat + 1) * k := by
            rw [Nat.succ_mul]
            omega
          _ ≤ (v1.toNat + 1) * 2 ^ 32 * k := Nat.mul_le_mul_right k (by omega)
      _ = (v1.toNat + 1) * 2 ^ 32 * (2 ^ 32 * k) := by ring
  have hest := refine_eq (u := u2.toNat)
    (Nat.div_add_mod' (u0.toNat * 2 ^ 32 + u1.toNat) v1.toNat).symm htop v2.toNat_lt (by omega)
    (estimate_le_div u2.toNat_lt (by omega))
    (lt_trans (Nat.mod_lt _ (by omega)) v1.toNat_lt) u2.toNat_lt
  have hn0 : (d ++ [v2, v1]).length = d.length + 2 := by simp
  unfold divStep
  rw [hn0]
  dsimp only
  rw [show d.length + 2 - 1 = d.length + 1 from rfl, show d.length + 2 - 2 = d.length + 0 from rfl,
    getD_append_length, getD_append_length, ← hlength, getD_append_length, getD_append_length, getD_append_length]
  simp only [getD_cons_zero, getD_cons_succ]
  rw [hnumHi, hest]
  rw [value_append_three, value_append_two, hlength] at hlt
  have hle := le_estimate (by omega) hu hlt
  have hge := estimate_le ((u0.toNat * 2 ^ 32 + u1.toNat) * 2 ^ 32 + u2.toNat) (value u)
    (Nat.two_pow_pos 32) (show 2 ^ 32 ≤ v1.toNat * 2 ^ 32 + v2.toNat by omega) hd
  have hdigit : estimate (2 ^ 32) ((u0.toNat * 2 ^ 32 + u1.toNat) * 2 ^ 32 + u2.toNat)
      (v1.toNat * 2 ^ 32 + v2.toNat) ≤ 2 ^ 32 - 1 := Nat.min_le_right _ _
  rw [← value_append_two, ← hlength, ← value_append_three] at hle hge
  generalize estimate (2 ^ 32) ((u0.toNat * 2 ^ 32 + u1.toNat) * 2 ^ 32 + u2.toNat)
    (v1.toNat * 2 ^ 32 + v2.toNat) = qhat at hle hge hdigit ⊢
  obtain ⟨hmlen, hfits, hover⟩ := mulSub_mod hle hge (by omega) hlen hpos
  generalize mulSub qhat (d ++ [v2, v1]) (u ++ [u2, u1, u0]) 0 0 = res at hmlen hfits hover ⊢
  split
  . next hborrow =>
    obtain ⟨hq, hvalue⟩ := hover hborrow
    refine ⟨?_, ?_, hvalue⟩
    . have hword : (ofNat (qhat - 1)).toNat = qhat - 1 :=
        toNat_ofNat_of_lt' (show qhat - 1 < 2 ^ 32 by omega)
      rw [hword, hq, Nat.add_sub_cancel]
    . rw [(addBack_value (hmlen.trans hlen) (Nat.two_pow_pos 32)).1, hmlen]
  . next hborrow =>
    obtain ⟨hq, hvalue⟩ := hfits (by simpa using hborrow)
    refine ⟨?_, hmlen, hvalue⟩
    have hword : (ofNat qhat).toNat = qhat :=
      toNat_ofNat_of_lt' (show qhat < 2 ^ 32 by omega)
    rw [hword, hq]

theorem divLoop_value (hn : Normalised dn) (hlen : j + dn.length ≤ un.length) (hlt : value (un.drop j) < value dn)
    : ∃ qs, (divLoop dn j un q).1 = qs ++ q ∧ qs.length = j ∧ (divLoop dn j un q).2.length = un.length ∧
        value un = value (divLoop dn j un q).2 + value dn * value qs ∧
        value (divLoop dn j un q).2 < value dn := by
  induction j generalizing un q with
  | zero => exact ⟨[], rfl, rfl, rfl, by simp [divLoop], hlt⟩
  | succ j ih =>
    have hdn := value_lt dn
    -- Nothing is left above the window, and the window is less than the divisor times the base.
    have hrest : value (un.drop (j + (dn.length + 1))) = 0 := by
      have hzero := value_drop_eq_zero (Nat.lt_trans hlt hdn)
      rwa [drop_drop, show j + 1 + dn.length = j + (dn.length + 1) by omega] at hzero
    have hwindow : value (un.drop j) = value ((un.drop j).take (dn.length + 1)) := by
      have hsplit := value_take_add_drop (k := dn.length + 1) (un.drop j) (by simp; omega)
      rw [drop_drop, hrest] at hsplit
      omega
    have hwlt : value ((un.drop j).take (dn.length + 1)) < 2 ^ 32 * value dn := by
      have hj : j < un.length := by omega
      have hlimb := toNat_lt un[j]
      rw [← hwindow, drop_eq_getElem_cons hj, value_cons]
      omega
    obtain ⟨hq, hwlen, hvalue⟩ := divStep_value hn (w := (un.drop j).take (dn.length + 1)) (by simp; omega) hwlt
    rw [divLoop]
    generalize hstep : divStep dn ((un.drop j).take (dn.length + 1)) = res at hq hwlen hvalue
    have hdrop : (un.take j ++ res.2 ++ un.drop (j + (dn.length + 1))).drop j =
        res.2 ++ un.drop (j + (dn.length + 1)) := by
      rw [append_assoc, drop_left' (by simp; omega)]
    have hnew : value (res.2 ++ un.drop (j + (dn.length + 1))) = value res.2 := by
      rw [value_append, hrest, Nat.mul_zero, Nat.add_zero]
    have hnewlen : (un.take j ++ res.2 ++ un.drop (j + (dn.length + 1))).length = un.length := by
      simp [hwlen]
      omega
    have hbound : value ((un.take j ++ res.2 ++ un.drop (j + (dn.length + 1))).drop j) < value dn := by
      rw [hdrop, hnew, hvalue]
      exact Nat.mod_lt _ (by omega)
    obtain ⟨qs, hqs, hqlen, hlength, hpassed, hless⟩ := ih (q := res.1 :: q) (by omega) hbound
    refine ⟨qs ++ [res.1], ?_, by simp [hqlen], hlength.trans hnewlen, ?_, hless⟩
    . rw [hqs, append_assoc, singleton_append]
    have hold := value_take_add_drop (k := j) un (by omega)
    have hparts := Nat.div_add_mod (value (un.drop j)) (value dn)
    rw [← hwindow] at hq hvalue
    have hstored : value (un.take j ++ res.2 ++ un.drop (j + (dn.length + 1))) =
        value (un.take j) + 2 ^ (32 * j) * value res.2 := by
      rw [append_assoc, value_append, hnew, length_take_of_le (by omega)]
    rw [hstored, hvalue] at hpassed
    rw [value_append, value_singleton, hqlen, hq]
    generalize value (un.drop j) / value dn = digit at hparts
    generalize value (un.drop j) % value dn = rest at hparts hpassed
    calc value un
      _ = value (un.take j) + 2 ^ (32 * j) * (value dn * digit + rest) := by rw [hparts, hold]
      _ = value (un.take j) + 2 ^ (32 * j) * rest + value dn * (2 ^ (32 * j) * digit) := by ring
      _ = _ := by rw [hpassed, Nat.add_assoc, ← Nat.mul_add]

theorem normalised_shlSmall (hden : Canonical den) (hlen : 2 ≤ den.length)
    (hshift : shift = Word.leadingZeros (den.getD (den.length - 1) 0).toBitVec)
    : shift < 32 ∧ (shlSmall den shift).length = den.length ∧ Normalised (shlSmall den shift) := by
  have hcanon := shlSmall_canonical (s := shift) hden
  cases den using List.reverseRecOn with
  | nil => contradiction
  | append_singleton d x =>
    have hx : x ≠ 0 := by simpa [Canonical] using hden
    have htop : (d ++ [x]).getD ((d ++ [x]).length - 1) 0 = x := by simp
    rw [htop] at hshift
    have hbits : x.toBitVec ≠ 0#32 := by
      intro hzero
      exact hx (UInt32.toBitVec_inj.mp hzero)
    have hs : shift < 32 := by
      rw [hshift]
      exact Word.leadingZeros_lt hbits
    have hlow := Word.le_mul_two_pow_leadingZeros hbits
    have hhigh := Word.succ_mul_two_pow_leadingZeros_le (x := x.toBitVec)
    rw [toNat_toBitVec, ← hshift] at hlow hhigh
    have hd := value_lt d
    have hvalue := shlSmall_value (d ++ [x]) hs
    rw [value_append, value_singleton] at hvalue
    have hle : 2 ^ 31 * 2 ^ (32 * d.length) ≤ value (shlSmall (d ++ [x]) shift) := by
      calc 2 ^ 31 * 2 ^ (32 * d.length)
        _ ≤ x.toNat * 2 ^ shift * 2 ^ (32 * d.length) := Nat.mul_le_mul_right _ hlow
        _ = 2 ^ (32 * d.length) * x.toNat * 2 ^ shift := by ring
        _ ≤ _ := by
          rw [hvalue]
          exact Nat.mul_le_mul_right _ (Nat.le_add_left _ _)
    have hlt : value (shlSmall (d ++ [x]) shift) < 2 ^ (32 * (d.length + 1)) := by
      calc value (shlSmall (d ++ [x]) shift)
        _ < 2 ^ (32 * d.length) * (x.toNat + 1) * 2 ^ shift := by
          rw [hvalue]
          apply Nat.mul_lt_mul_of_pos_right _ (Nat.two_pow_pos shift)
          rw [Nat.mul_succ]
          omega
        _ = (x.toNat + 1) * 2 ^ shift * 2 ^ (32 * d.length) := by ring
        _ ≤ 2 ^ 32 * 2 ^ (32 * d.length) := Nat.mul_le_mul_right _ hhigh
        _ = 2 ^ (32 * (d.length + 1)) := by ring
    have hshort := hcanon.length_le hlt
    have hlong : d.length < (shlSmall (d ++ [x]) shift).length := by
      apply lt_length
      omega
    have hlength : (shlSmall (d ++ [x]) shift).length = (d ++ [x]).length := by
      rw [length_append, length_singleton]
      omega
    refine ⟨hs, hlength, by omega, ?_⟩
    rwa [hlength, length_append, length_singleton, Nat.add_sub_cancel]

theorem divmodLimbs_long (hnum : Canonical num) (hden : Canonical den) (hlen : 2 ≤ den.length)
    (hle : den.length ≤ num.length)
    (hshift : shift = Word.leadingZeros (den.getD (den.length - 1) 0).toBitVec)
    (hun : un = (shlSmall num shift ++ List.replicate (num.length + 1 - (shlSmall num shift).length) 0).take
      (num.length + 1))
    (hres : res = divLoop (shlSmall den shift) (num.length - den.length + 1) un [])
    : value num = value res.1 * value den + value (shrSmall (res.2.take den.length) shift) ∧
        value (shrSmall (res.2.take den.length) shift) < value den := by
  obtain ⟨hs, hdnlen, hnorm⟩ := normalised_shlSmall hden hlen hshift
  have hdn := shlSmall_value den hs
  have hdnlt := value_lt (shlSmall den shift)
  obtain ⟨hunval, hunlen⟩ : value un = value num * 2 ^ shift ∧ un.length = num.length + 1 := by
    have hlt : value (shlSmall num shift) < 2 ^ (32 * (num.length + 1)) := by
      rw [shlSmall_value num hs, Nat.mul_succ, pow_add]
      exact Nat.mul_lt_mul_of_lt_of_le (value_lt num) (Nat.pow_le_pow_right (by omega) (by omega))
        (Nat.two_pow_pos 32)
    have hshort := (shlSmall_canonical (s := shift) hnum).length_le hlt
    rw [hun, take_of_length_le (by simp; omega), value_append, value_replicate_zero, shlSmall_value num hs]
    refine ⟨by omega, ?_⟩
    simp
    omega
  -- The limbs above the first window are less than the divisor, since the dividend has no more limbs.
  have htop : value (un.drop (num.length - den.length + 1)) < value (shlSmall den shift) := by
    have hsplit := value_take_add_drop (k := num.length - den.length + 1) un (by omega)
    have hbound := hden.le_value (ne_nil_of_length_pos (by omega))
    apply Nat.lt_of_mul_lt_mul_left (a := 2 ^ (32 * (num.length - den.length + 1)))
    calc 2 ^ (32 * (num.length - den.length + 1)) * value (un.drop (num.length - den.length + 1))
      _ ≤ value num * 2 ^ shift := by omega
      _ < 2 ^ (32 * num.length) * 2 ^ shift := Nat.mul_lt_mul_of_pos_right (value_lt num) (Nat.two_pow_pos shift)
      _ = 2 ^ (32 * (num.length - den.length + 1)) * (2 ^ (32 * (den.length - 1)) * 2 ^ shift) := by
        have hpow : 32 * num.length = 32 * (num.length - den.length + 1) + 32 * (den.length - 1) := by omega
        rw [← mul_assoc, ← pow_add _ _ (32 * (den.length - 1)), ← hpow]
      _ ≤ 2 ^ (32 * (num.length - den.length + 1)) * value (shlSmall den shift) := by
        rw [hdn]
        exact Nat.mul_le_mul_left _ (Nat.mul_le_mul_right _ hbound)
  obtain ⟨qs, hqs, _, _, hvalue, hlt⟩ := divLoop_value (q := []) hnorm (by omega) htop
  rw [← hres, append_nil] at hqs
  rw [← hres, hunval, hdn] at hvalue
  rw [← hres] at hlt
  rw [shrSmall_value _ hs, value_take_of_lt (by rw [← hdnlen]; omega), hqs]
  constructor
  . calc value num
      _ = value num * 2 ^ shift / 2 ^ shift := (Nat.mul_div_cancel _ (Nat.two_pow_pos shift)).symm
      _ = (value res.2 + value qs * value den * 2 ^ shift) / 2 ^ shift := by
        rw [hvalue]
        congr 2
        ring
      _ = value qs * value den + value res.2 / 2 ^ shift := by
        rw [Nat.add_mul_div_right _ _ (Nat.two_pow_pos shift), add_comm]
  . apply (Nat.div_lt_iff_lt_mul (Nat.two_pow_pos shift)).mpr
    rwa [← hdn]

theorem divmodLimbs_value (hnum : Canonical num) (hden : Canonical den) (hne : den ≠ [])
    : value num = value (divmodLimbs num den).1 * value den + value (divmodLimbs num den).2 ∧
        value (divmodLimbs num den).2 < value den := by
  have hcmp := absCmp_eq hnum hden
  unfold divmodLimbs
  split
  . next hless =>
    rw [hcmp, Nat.compare_eq_lt] at hless
    rw [value_trim, value_nil, Nat.zero_mul, Nat.zero_add]
    exact ⟨rfl, hless⟩
  next hnot =>
  rw [hcmp, Nat.compare_eq_lt] at hnot
  split
  . next hone =>
    obtain ⟨d, rfl⟩ := length_eq_one_iff.mp hone
    have hd : d ≠ 0 := by simpa [Canonical] using hden
    obtain ⟨hvalue, hlt, _⟩ := divmodByU32_value hd num
    have hrem : value (if (divmodByU32 num d).2 = 0 then [] else [(divmodByU32 num d).2]) =
        (divmodByU32 num d).2.toNat := by
      split
      . next hzero => simp [hzero]
      . rw [value_singleton]
    dsimp only [headD_cons]
    rw [hrem, value_singleton]
    exact ⟨hvalue.symm, hlt⟩
  . next hone =>
    have hpos := length_pos_of_ne_nil hne
    have hle : den.length ≤ num.length := by
      apply Decidable.byContradiction
      intro _
      have := hden.value_lt_of_length_lt (l := num) (by omega)
      omega
    rw [value_trim]
    exact divmodLimbs_long hnum hden (by omega) hle rfl rfl rfl

theorem divmodLimbs_canonical (num den : List UInt32)
    : Canonical (divmodLimbs num den).1 ∧ Canonical (divmodLimbs num den).2 := by
  unfold divmodLimbs
  split
  . exact ⟨canonical_nil, canonical_trim _⟩
  split
  . refine ⟨canonical_trim _, ?_⟩
    dsimp only
    split
    . exact canonical_nil
    . next hne => simpa [Canonical] using hne
  . exact ⟨canonical_trim _, shrSmall_canonical _ _⟩

end Big
