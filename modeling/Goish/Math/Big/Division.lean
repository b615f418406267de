import Goish.Math.Big.Lemmas.Int

open Limbs

namespace Big

variable {x y : Int} {m n : ℤ}

theorem quoRem_eq (x y : Int) : quoRem x y = (quo x y).bind (fun q => (rem x y).map (fun r => (q, r))) := by
  unfold quoRem quo rem
  split
  . rfl
  . rfl

theorem divMod_eq (x y : Int) : divMod x y = (div x y).bind (fun q => (mod x y).map (fun r => (q, r))) := by
  unfold divMod div mod
  split
  . rfl
  dsimp only
  split
  . next hneg =>
    split
    all_goals rfl
  . next hnonneg =>
    rw [Bool.not_eq_true] at hnonneg
    rw [hnonneg]
    rfl

section Quotients

variable (hx : Denotes x m) (hy : Denotes y n) (hn : n ≠ 0)
include hx hy hn

theorem divmodLimbs_natAbs : value (divmodLimbs x.abs y.abs).1 = m.natAbs / n.natAbs ∧
        value (divmodLimbs x.abs y.abs).2 = m.natAbs % n.natAbs := by
  have hne := hy.ne_zero_iff.mp hn
  obtain ⟨hvalue, hlt⟩ := divmodLimbs_value hx.abs_canonical hy.abs_canonical hne
  rw [hx.natAbs_eq, hy.natAbs_eq]
  obtain ⟨hq, hr⟩ := (Nat.div_mod_unique (hy.abs_canonical.value_pos hne)).mpr ⟨by rw [mul_comm, add_comm, ← hvalue], hlt⟩
  exact ⟨hq.symm, hr.symm⟩

theorem quoAbs_denotes
    : Denotes { neg := !(divmodLimbs x.abs y.abs).1.isEmpty && (x.neg != y.neg), abs := (divmodLimbs x.abs y.abs).1 }
        (m.tdiv n) := by
  have hvalue := (divmodLimbs_natAbs hx hy hn).1
  apply Denotes.signed _ (divmodLimbs_canonical _ _).1
  rw [hvalue]
  cases hx with
  | nonneg | neg =>
    cases hy with
    | nonneg | neg => simp

theorem remAbs_denotes
    : Denotes { neg := !(divmodLimbs x.abs y.abs).2.isEmpty && x.neg, abs := (divmodLimbs x.abs y.abs).2 }
        (m.tmod n) := by
  have hvalue := (divmodLimbs_natAbs hx hy hn).2
  have habs : m.tmod n = m.tmod n.natAbs := by
    rcases Int.natAbs_eq n with h | h
    . rw [← h]
    . conv_lhs => rw [h, Int.tmod_neg]
  apply Denotes.signed _ (divmodLimbs_canonical _ _).2
  rw [hvalue, habs, Int.ofNat_tmod]
  cases hx with
  | nonneg => rfl
  | neg => rw [if_pos rfl, Int.natAbs_neg, Int.natAbs_natCast, Int.neg_tmod]

theorem quo_denotes : ∃ q, quo x y = some q ∧ Denotes q (m.tdiv n) := by
  have hne := hy.ne_zero_iff.mp hn
  unfold quo
  rw [if_neg (by simpa using hne)]
  exact ⟨_, rfl, quoAbs_denotes hx hy hn⟩

theorem rem_denotes : ∃ r, rem x y = some r ∧ Denotes r (m.tmod n) := by
  have hne := hy.ne_zero_iff.mp hn
  unfold rem
  rw [if_neg (by simpa using hne)]
  exact ⟨_, rfl, remAbs_denotes hx hy hn⟩

theorem remNeg_iff : (!(divmodLimbs x.abs y.abs).2.isEmpty && x.neg) = true ↔ ¬(0 ≤ m ∨ n ∣ m) := by
  have hvalue := (divmodLimbs_natAbs hx hy hn).2
  have hcanon := (divmodLimbs_canonical x.abs y.abs).2
  have hempty : (divmodLimbs x.abs y.abs).2.isEmpty = true ↔ n ∣ m := by
    rw [List.isEmpty_iff, ← hcanon.value_eq_zero_iff, hvalue, ← Int.natAbs_dvd_natAbs, Nat.dvd_iff_mod_eq_zero]
  have hneg : x.neg = true ↔ ¬ 0 ≤ m := by
    cases hx with
    | nonneg => simp
    | neg =>
      simp
      omega
  rw [Bool.and_eq_true, Bool.not_eq_true', ← Bool.not_eq_true, hempty, hneg]
  tauto

theorem remAbs_eq : (if !(divmodLimbs x.abs y.abs).2.isEmpty && x.neg then -(value (divmodLimbs x.abs y.abs).2 : ℤ)
        else value (divmodLimbs x.abs y.abs).2) = m.tmod n :=
  (denotes_iff.mp (remAbs_denotes hx hy hn)).2

theorem modAbs_denotes : Denotes
        { neg := false
          abs :=
            if !(divmodLimbs x.abs y.abs).2.isEmpty && x.neg then subLimbs y.abs (divmodLimbs x.abs y.abs).2
            else (divmodLimbs x.abs y.abs).2 }
        (m % n) := by
  have hrem := remAbs_eq hx hy hn
  have hcorr := remNeg_iff hx hy hn
  have htmod := Int.tmod_eq_emod (a := m) (b := n)
  have hcanon := (divmodLimbs_canonical x.abs y.abs).2
  have hlt : value (divmodLimbs x.abs y.abs).2 < n.natAbs := by
    rw [(divmodLimbs_natAbs hx hy hn).2]
    exact Nat.mod_lt _ (Int.natAbs_pos.mpr hn)
  split
  . next hneg =>
    rw [if_pos hneg] at hrem
    rw [if_neg (hcorr.mp hneg)] at htmod
    apply Denotes.of_nonneg (subLimbs_canonical _ _)
    rw [hy.natAbs_eq] at hlt htmod
    rw [subLimbs_eq hcanon hlt.le]
    omega
  . next hnonneg =>
    rw [if_neg hnonneg] at hrem
    rw [if_pos (Decidable.not_not.mp (mt hcorr.mpr hnonneg))] at htmod
    apply Denotes.of_nonneg hcanon
    omega

theorem mod_denotes : ∃ r, mod x y = some r ∧ Denotes r (m % n) := by
  have hne := hy.ne_zero_iff.mp hn
  have hmod := modAbs_denotes hx hy hn
  unfold mod
  rw [if_neg (by simpa using hne)]
  dsimp only
  split
  . next hneg =>
    rw [if_pos hneg] at hmod
    exact ⟨_, rfl, hmod⟩
  . next hnonneg =>
    rw [if_neg hnonneg] at hmod
    exact ⟨_, rfl, hmod⟩

theorem div_denotes : ∃ q, div x y = some q ∧ Denotes q (m / n) := by
  have hne := hy.ne_zero_iff.mp hn
  have hcorr := remNeg_iff hx hy hn
  have htdiv := Int.tdiv_eq_ediv (a := m) (b := n)
  have hquo := quoAbs_denotes hx hy hn
  have hsign : n.sign = if y.neg then -1 else 1 := by
    cases hy with
    | nonneg => exact Int.sign_eq_one_of_pos (by omega)
    | neg => exact Int.sign_eq_neg_one_of_neg (by omega)
  unfold div
  rw [if_neg (by simpa using hne)]
  dsimp only
  split
  . next hneg =>
    rw [if_neg (hcorr.mp hneg), hsign] at htdiv
    split
    . next hyneg =>
      rw [if_pos hyneg] at htdiv
      refine ⟨_, rfl, ?_⟩
      have hadd := addInt64_denotes hquo 1
      rwa [show (1 : Int64).toInt = 1 from rfl, htdiv, Int.neg_add_cancel_right] at hadd
    . next hypos =>
      rw [if_neg hypos] at htdiv
      refine ⟨_, rfl, ?_⟩
      have hadd := addInt64_denotes hquo (-1)
      rwa [show (-1 : Int64).toInt = -1 from rfl, htdiv, Int.add_neg_cancel_right] at hadd
  . next hnonneg =>
    rw [if_pos (Decidable.not_not.mp (mt hcorr.mpr hnonneg)), Int.add_zero] at htdiv
    rw [htdiv] at hquo
    exact ⟨_, rfl, hquo⟩

end Quotients

theorem divmod_exact : (∀ num den, Limbs.Canonical num → Limbs.Canonical den → den ≠ [] →
        ∃ q r, divmodLimbs num den = (q, r) ∧ Limbs.Canonical q ∧ Limbs.Canonical r ∧
          value num = value q * value den + value r ∧ value r < value den) ∧
      (∀ x y : Int, x.Canonical → y.Canonical → y.toInt ≠ 0 →
        (∃ q r, quo x y = some q ∧ rem x y = some r ∧ quoRem x y = some (q, r) ∧
          q.Canonical ∧ r.Canonical ∧ x.toInt = q.toInt * y.toInt + r.toInt ∧
          q.toInt = x.toInt.tdiv y.toInt ∧ r.toInt = x.toInt.tmod y.toInt) ∧
        (∃ q r, div x y = some q ∧ mod x y = some r ∧ divMod x y = some (q, r) ∧
          q.Canonical ∧ r.Canonical ∧ x.toInt = q.toInt * y.toInt + r.toInt ∧
          0 ≤ r.toInt ∧ r.toInt < |y.toInt| ∧ q.toInt = x.toInt / y.toInt ∧ r.toInt = x.toInt % y.toInt)) := by
  constructor
  . intro num den hnum hden hne
    obtain ⟨hvalue, hlt⟩ := divmodLimbs_value hnum hden hne
    obtain ⟨hq, hr⟩ := divmodLimbs_canonical num den
    exact ⟨_, _, rfl, hq, hr, hvalue, hlt⟩
  intro x y hcx hcy hne
  have hx : Denotes x x.toInt := denotes_iff.mpr ⟨hcx, rfl⟩
  have hy : Denotes y y.toInt := denotes_iff.mpr ⟨hcy, rfl⟩
  constructor
  . obtain ⟨q, hquo, hq⟩ := quo_denotes hx hy hne
    obtain ⟨r, hrem, hr⟩ := rem_denotes hx hy hne
    rw [denotes_iff] at hq hr
    refine ⟨q, r, hquo, hrem, ?_, hq.1, hr.1, ?_, hq.2, hr.2⟩
    . rw [quoRem_eq, hquo, hrem]
      rfl
    . rw [hq.2, hr.2, Int.tdiv_mul_add_tmod]
  obtain ⟨q, hdiv, hq⟩ := div_denotes hx hy hne
  obtain ⟨r, hmod, hr⟩ := mod_denotes hx hy hne
  rw [denotes_iff] at hq hr
  refine ⟨q, r, hdiv, hmod, ?_, hq.1, hr.1, ?_, ?_, ?_, hq.2, hr.2⟩
  . rw [divMod_eq, hdiv, hmod]
    rfl
  . rw [hq.2, hr.2, Int.ediv_mul_add_emod]
  . rw [hr.2]
    exact Int.emod_nonneg _ hne
  . rw [hr.2]
    exact Int.emod_lt_abs _ hne

theorem divmod_exact_estimate
    : (∃ q r, divmodLimbs [0, 0, 0x80000000] [1, 0x80000000] = (q, r) ∧ Limbs.Canonical q ∧ Limbs.Canonical r ∧
        value [0, 0, 0x80000000] = value q * value [1, 0x80000000] + value r ∧
        value r < value [1, 0x80000000]) ∧
      (∃ q r, div { neg := true, abs := [7] } { neg := false, abs := [2] } = some q ∧
        mod { neg := true, abs := [7] } { neg := false, abs := [2] } = some r ∧
        q.toInt = -4 ∧ r.toInt = 1) := by
  constructor
  . exact divmod_exact.1 _ _ (by decide) (by decide) (by decide)
  . obtain ⟨q, r, hdiv, hmod, _, _, _, _, _, _, hq, hr⟩ :=
      (divmod_exact.2 { neg := true, abs := [7] } { neg := false, abs := [2] } ⟨by decide, by decide⟩
        ⟨by decide, by decide⟩ (by decide)).2
    exact ⟨q, r, hdiv, hmod, hq, hr⟩

end Big
