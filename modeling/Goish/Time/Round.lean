import Goish.Time.Arith

/-! `Truncate` and `Round` take the remainder of the nanoseconds since 1970, counted in 64 bits, for that since the zero
time. -/

namespace Time

open Int

def IsNearest (d x i : Int) : Prop :=
  d ∣ i ∧ 2 * (x - i) < d ∧ 2 * (i - x) ≤ d

-- Of two multiples that are as near, the one further from zero.
def IsNearestAway (m x k : Int) : Prop :=
  m ∣ k ∧ (2 * (x - k).natAbs < m ∨ 2 * (x - k).natAbs = m ∧ x.natAbs < k.natAbs)

/-- The two counts agree modulo `d`, where `n` is the exact number of nanoseconds since 1970. -/
def Aligned (t : Time) (d : Int) : Prop :=
  let n := t.instant - 62135596800 * 1000000000
  d ∣ 62135596800 * 1000000000 + (n - wrap n)

instance : Decidable (Aligned t d) :=
  inferInstanceAs (Decidable (_ ∣ _))

variable {t : Time} {d i : Int}

theorem aligned_iff : t.Aligned d ↔ t.unixNano % d = t.instant % d := by
  have hnano : t.unixNano = wrap (t.instant - 62135596800 * 1000000000) := by
    unfold unixNano instant unixSec internalToUnix unixToInternal
    rw [wrap_wrap_add]
    congr 1
    omega
  have hsub (n : Int) : 62135596800 * 1000000000 + (t.instant - 62135596800 * 1000000000 - n) = t.instant - n := by omega
  dsimp only [Aligned]
  rw [hnano, hsub, eq_comm, emod_eq_emod_iff_emod_sub_eq_zero, dvd_iff_emod_eq_zero]

theorem eq_of_isGreatest (hd : 0 < d) (h : IsGreatest {i | d ∣ i ∧ i ≤ x} i) : i = x - x % d := by
  obtain ⟨⟨⟨k, hk⟩, hle⟩, hupper⟩ := h
  have hself := hupper ⟨dvd_self_sub_emod, sub_le_self x (emod_nonneg x (ne_of_gt hd))⟩
  have hlt := emod_lt_of_pos x hd
  have hsmall := emod_eq_of_lt (a := x - i) (b := d) (by omega) (by omega)
  rw [hk, sub_mul_emod_self_left, ← hk] at hsmall
  omega

theorem IsNearest.cases (hd : 0 < d) (h : IsNearest d x i)
    : 2 * (x % d) < d ∧ i = x - x % d ∨ d ≤ 2 * (x % d) ∧ i = x - x % d + d := by
  obtain ⟨⟨k, hk⟩, hlow, hhigh⟩ := h
  rcases lt_or_ge x i with hlt | hge
  . have := emod_eq_of_lt (a := x - i + d) (b := d) (by omega) (by omega)
    rw [add_emod_right, hk, sub_mul_emod_self_left, ← hk] at this
    omega
  . have := emod_eq_of_lt (a := x - i) (b := d) (by omega) (by omega)
    rw [hk, sub_mul_emod_self_left, ← hk] at this
    omega

theorem emod_bounds (hd : 0 < d) (n : Int) : 0 ≤ n % d ∧ n % d < d :=
  ⟨emod_nonneg n (ne_of_gt hd), emod_lt_of_pos n hd⟩

theorem Duration.round_exact (hx : Fits x) (hm : 0 < m) (hfits : Fits m)
    : ∃ k, IsNearestAway m x k ∧ Duration.round x m = clamp k := by
  have hrem := emod_bounds hm x.natAbs
  have hdvd : m ∣ x.natAbs - x.natAbs % m := dvd_self_sub_emod
  have htmod : x.tmod m = if x < 0 then -(x.natAbs % m) else x.natAbs % m := by
    split
    . next h => rw [ofNat_natAbs_of_nonpos h.le, ← tmod_eq_emod_of_nonneg (by omega), neg_tmod, neg_neg]
    . next h => rw [natAbs_of_nonneg (by omega), tmod_eq_emod_of_nonneg (by omega)]
  generalize (x.natAbs : Int) % m = r at *
  obtain ⟨y, hy, hcases⟩ : ∃ y, m ∣ y ∧ (2 * r < m ∧ y = x.natAbs - r ∨ m ≤ 2 * r ∧ y = x.natAbs - r + m) := by
    rcases lt_or_ge (2 * r) m with h | h
    . exact ⟨_, hdvd, .inl ⟨h, rfl⟩⟩
    . exact ⟨_, Int.dvd_add hdvd (Int.dvd_refl m), .inr ⟨h, rfl⟩⟩
  refine ⟨if x < 0 then -y else y, ⟨?_, ?_⟩, ?_⟩
  . split
    . exact Int.dvd_neg.mpr hy
    . exact hy
  . split <;> omega
  obtain ⟨k, hk, hwrap⟩ := exists_wrap (x - m + r)
  obtain ⟨j, hj, hwrap'⟩ := exists_wrap (x + m - r)
  unfold Fits at hx hfits hwrap hwrap'
  simp only [Duration.round, lessThanHalf, clamp, minDuration, maxDuration, htmod, wrap_wrap_add, wrap_wrap_sub,
    decide_eq_true_eq, apply_ite Neg.neg, neg_neg]
  split_ifs <;> omega

section Wall

variable (ht : t.Ok) (hd : 0 < d) (hfits : Fits d) (hi : Fits (i / 1000000000))
include ht hd hfits hi

theorem truncate_iff (h : IsGreatest {i | d ∣ i ∧ i ≤ t.instant} i)
    : (t.truncate d).instant = i ↔ t.Aligned d := by
  rw [aligned_iff]
  have heq := eq_of_isGreatest hd h
  have hrem := emod_bounds hd t.instant
  have hrem' := emod_bounds hd t.unixNano
  have hnsec := ht.nsec
  unfold Fits at hfits
  unfold truncate
  rw [if_neg (by omega)]
  change (t.add (-(t.unixNano % d))).instant = i ↔ _
  rw [add_instant_eq_iff ht (by unfold Fits; omega) hi (by omega)]
  omega

theorem round_iff (h : IsNearest d t.instant i)
    : (t.round d).instant = i ↔ t.Aligned d ∧ t.instant % d < 2 ^ 62 ∧
        (d ≤ 2 * (t.instant % d) → t.nsec + d - t.instant % d < 2 ^ 63) := by
  rw [aligned_iff]
  have hcases := h.cases hd
  have hrem := emod_bounds hd t.instant
  have hrem' := emod_bounds hd t.unixNano
  have hnsec := ht.nsec
  obtain ⟨k, hk, hwrap⟩ := exists_wrap (t.unixNano % d * 2)
  unfold Fits at hfits hwrap
  unfold round
  rw [if_neg (by omega)]
  change (if wrap (t.unixNano % d * 2) < d then _ else _ : Time).instant = i ↔ _
  split
  . change (t.add (-(t.unixNano % d))).instant = i ↔ _
    rw [add_instant_eq_iff ht (by unfold Fits; omega) hi (by omega)]
    omega
  . change (t.add (d - t.unixNano % d)).instant = i ↔ _
    rw [add_instant_eq_iff ht (by unfold Fits; omega) hi (by omega)]
    omega

end Wall

theorem rounding_iff (ht : t.Ok) (hd : 0 < d) (hfits : Fits d) (hx : Fits x) (hm : 0 < m) (hfits' : Fits m)
    : (∀ i, IsGreatest {i | d ∣ i ∧ i ≤ t.instant} i → Fits (i / 1000000000) → (t.truncate d).instant = i) ∧
        (∀ i, IsNearest d t.instant i → Fits (i / 1000000000) → (t.round d).instant = i) ∧
        (∃ k, IsNearestAway m x k ∧ Duration.round x m = clamp k) ↔
      (∀ i, IsGreatest {i | d ∣ i ∧ i ≤ t.instant} i → Fits (i / 1000000000) → t.Aligned d) ∧
        ∀ i, IsNearest d t.instant i → Fits (i / 1000000000) → t.Aligned d ∧ t.instant % d < 2 ^ 62 ∧
          (d ≤ 2 * (t.instant % d) → t.nsec + d - t.instant % d < 2 ^ 63) := by
  rw [and_iff_left (Duration.round_exact hx hm hfits')]
  apply and_congr
  . apply forall_congr'
    exact fun i => forall_congr' fun h => forall_congr' fun hi => truncate_iff ht hd hfits hi h
  . apply forall_congr'
    exact fun i => forall_congr' fun h => forall_congr' fun hi => round_iff ht hd hfits hi h

theorem rounding_hour : ((unix 3601 0).round 3600000000000).instant = (unix 3600 0).instant :=
  ((rounding_iff (t := unix 3601 0) (d := 3600000000000) (x := 0) (m := 1) (by decide) (by decide) (by decide) (by decide)
    (by decide) (by decide)).mpr ⟨fun _ _ _ => by decide, fun _ _ _ => by decide⟩).2.1 _
    ⟨by decide, by decide, by decide⟩ (by decide)

theorem truncate_week : ((unix 0 0).truncate 604800000000000).instant = (unix 0 0).instant ∧
    ¬604800000000000 ∣ (unix 0 0).instant := by
  decide +kernel

end Time
