import Goish.Time.Date

/-! The sum of a time and a duration, the difference of two times and their order. -/

namespace Time

structure Ok (t : Time) : Prop where
  sec : Fits t.sec
  nsec : 0 ≤ t.nsec ∧ t.nsec < 1000000000
  mono : Fits t.mono

instance (t : Time) : Decidable t.Ok :=
  decidable_of_iff (Fits t.sec ∧ (0 ≤ t.nsec ∧ t.nsec < 1000000000) ∧ Fits t.mono)
    ⟨fun h => ⟨h.1, h.2.1, h.2.2⟩, fun h => ⟨h.sec, h.nsec, h.mono⟩⟩

def clamp (x : Int) : Int :=
  if x < minDuration then minDuration else if x > maxDuration then maxDuration else x

def difference (t u : Time) : Int :=
  if t.mono ≠ 0 ∧ u.mono ≠ 0 then t.mono - u.mono else t.instant - u.instant

theorem exists_wrap (x : Int) : ∃ k, wrap x = x - 2 ^ 64 * k ∧ Fits (wrap x) := by
  refine ⟨x.bdiv (2 ^ 64), ?_, ?_⟩
  . have := Int.bmod_add_bdiv x (2 ^ 64)
    unfold wrap
    omega
  . have hle := Int.le_bmod (x := x) (m := 2 ^ 64) (by decide)
    have hlt := Int.bmod_lt (x := x) (m := 2 ^ 64) (by decide)
    unfold Fits wrap
    omega

variable {t u : Time} {d : Int}

theorem add_equal_iff (ht : t.Ok) (d : Int) : (u.add d).equal t = true ↔
        ∃ m, wrap (u.nsec + d) = t.instant - u.instant + u.nsec + 2 ^ 64 * 1000000000 * m := by
  obtain ⟨hsec, _⟩ := ht
  obtain ⟨k, _, hfits⟩ := exists_wrap (u.sec + wrap (u.nsec + d) / 1000000000)
  unfold Fits at hsec hfits
  simp only [equal, add, instant, Bool.and_eq_true, beq_iff_eq]
  constructor
  . intro _
    exact ⟨k, by omega⟩
  . intro _
    omega

theorem add_instant_eq_iff (ht : t.Ok) (hd : Fits d) (hi : Fits (i / 1000000000)) (hnear : (i - t.instant).natAbs ≤ 2 ^ 63)
    : (t.add d).instant = i ↔ i - t.instant = d ∧ t.nsec + d < 2 ^ 63 := by
  obtain ⟨hsec, _⟩ := ht
  obtain ⟨_, _, hfits⟩ := exists_wrap (t.nsec + d)
  obtain ⟨_, _, hfits'⟩ := exists_wrap (t.sec + wrap (t.nsec + d) / 1000000000)
  unfold Fits at hsec hd hi hfits hfits'
  simp only [instant, add] at hnear ⊢
  omega

theorem add_instant_iff (ht : t.Ok) (hd : Fits d) (hsum : Fits ((t.instant + d) / 1000000000))
    : (t.add d).instant = t.instant + d ↔ t.nsec + d < 2 ^ 63 := by
  have hnear : (t.instant + d - t.instant).natAbs ≤ 2 ^ 63 := by
    unfold Fits at hd
    omega
  rw [add_instant_eq_iff ht hd hsum hnear]
  omega

theorem subMono_eq (ht : Fits t.mono) (hu : Fits u.mono) : subMono t.mono u.mono = clamp (t.mono - u.mono) := by
  obtain ⟨_, _, hfits⟩ := exists_wrap (t.mono - u.mono)
  unfold Fits at ht hu hfits
  unfold subMono clamp minDuration maxDuration
  dsimp only
  split_ifs <;> omega

section

variable (ht : t.Ok) (hu : u.Ok)
include ht hu

theorem before_iff : t.before u = true ↔ t.instant - u.instant < 0 := by
  have := ht.nsec
  have := hu.nsec
  simp only [before, instant, Bool.or_eq_true, Bool.and_eq_true, beq_iff_eq, decide_eq_true_eq]
  omega

theorem sub_wall (hmono : ¬(t.mono ≠ 0 ∧ u.mono ≠ 0))
    : t.sub u = if (u.add (wrap (t.instant - u.instant))).equal t then wrap (t.instant - u.instant)
        else if t.instant - u.instant < 0 then minDuration else maxDuration := by
  have hd : wrap (wrap (wrap (t.sec - u.sec) * 1000000000) + wrap (t.nsec - u.nsec)) = wrap (t.instant - u.instant) := by
    have hmul : wrap (wrap (t.sec - u.sec) * 1000000000) = wrap ((t.sec - u.sec) * 1000000000) := Int.bmod_mul_bmod
    rw [wrap_add_wrap, hmul, wrap_wrap_add]
    congr 1
    unfold instant
    omega
  unfold sub
  simp only [if_neg hmono, hd, before_iff ht hu]

theorem difference_bounds
    : -2 ^ 64 * 1000000000 < t.instant - u.instant ∧ t.instant - u.instant < 2 ^ 64 * 1000000000 := by
  obtain ⟨hsec, _⟩ := ht
  obtain ⟨hsec', _⟩ := hu
  unfold Fits at hsec hsec'
  unfold instant
  omega

theorem add_wrap_equal_iff (hx : x = t.instant - u.instant) : (u.add (wrap x)).equal t = true ↔
        Fits (u.nsec + x) ∨ 2 ^ 64 * 1000000000 - 2 ^ 63 ≤ u.nsec + x ∨ u.nsec + x < -2 ^ 64 * 1000000000 + 2 ^ 63 := by
  have hbounds := difference_bounds ht hu
  have hnsec := hu.nsec
  obtain ⟨_, _, hfits⟩ := exists_wrap (u.nsec + x)
  rw [add_equal_iff ht, wrap_add_wrap, ← hx]
  unfold Fits at hfits ⊢
  constructor
  . intro _
    omega
  . rintro (h | h | h)
    . exact ⟨0, by omega⟩
    . exact ⟨-1, by omega⟩
    . exact ⟨1, by omega⟩

end

def SubOk (t u : Time) : Prop :=
  if Fits (t.instant - u.instant) then
    u.nsec + (t.instant - u.instant) < 2 ^ 63
  else if 0 ≤ t.instant - u.instant then
    u.nsec + (t.instant - u.instant) < 2 ^ 64 * 1000000000 - 2 ^ 63 ∨
      t.instant - u.instant = 2 ^ 64 * 1000000000 - 2 ^ 63 - 1
  else
    -2 ^ 64 * 1000000000 + 2 ^ 63 ≤ u.nsec + (t.instant - u.instant) ∧ u.nsec + (t.instant - u.instant) < -2 ^ 63

theorem clamp_of_fits (h : Fits x) : clamp x = x := by
  unfold Fits at h
  unfold clamp minDuration maxDuration
  rw [if_neg (by omega), if_neg (by omega)]

theorem sub_iff (ht : t.Ok) (hu : u.Ok) (hmono : ¬(t.mono ≠ 0 ∧ u.mono ≠ 0))
    : t.sub u = clamp (t.instant - u.instant) ∧ (Fits (t.instant - u.instant) → (u.add (t.sub u)).equal t = true) ↔
        SubOk t u := by
  obtain ⟨x, hx⟩ : ∃ x, x = t.instant - u.instant := ⟨_, rfl⟩
  have hequal := add_wrap_equal_iff ht hu hx
  have hsub := sub_wall ht hu hmono
  have hbounds := difference_bounds ht hu
  have hnsec := hu.nsec
  unfold SubOk
  rw [← hx] at hsub hbounds ⊢
  by_cases hle : Fits x
  . rw [wrap_of_fits hle] at hequal hsub
    rw [clamp_of_fits hle, if_pos hle]
    unfold Fits at hle hequal
    constructor
    . rintro ⟨heq, hround⟩
      have := hequal.mp (heq ▸ hround hle)
      omega
    . intro _
      rw [if_pos (hequal.mpr (by omega))] at hsub
      exact ⟨hsub, fun _ => hsub ▸ hequal.mpr (by omega)⟩
  . -- The difference does not fit, and comes back only if the seconds overflow.
    obtain ⟨_, _, hfits⟩ := exists_wrap x
    rw [if_neg hle, hsub]
    simp only [hequal, hle, false_imp_iff, and_true]
    unfold Fits at hle hfits ⊢
    unfold clamp minDuration maxDuration
    split_ifs <;> omega

theorem arithmetic_iff (ht : t.Ok) (hu : u.Ok) (hd : Fits d)
    : (Fits ((t.instant + d) / 1000000000) → (t.add d).instant = t.instant + d) ∧
        t.sub u = clamp (t.difference u) ∧
        (¬(t.mono ≠ 0 ∧ u.mono ≠ 0) → Fits (t.instant - u.instant) → (u.add (t.sub u)).equal t = true) ↔
      (Fits ((t.instant + d) / 1000000000) → t.nsec + d < 2 ^ 63) ∧ (¬(t.mono ≠ 0 ∧ u.mono ≠ 0) → SubOk t u) := by
  apply and_congr
  . apply imp_congr_right
    exact add_instant_iff ht hd
  unfold difference
  by_cases hmono : t.mono ≠ 0 ∧ u.mono ≠ 0
  . have hsub : t.sub u = clamp (t.mono - u.mono) := by
      unfold sub
      rw [if_pos hmono, subMono_eq ht.mono hu.mono]
    simp [hmono, hsub]
  . rw [if_neg hmono, ← sub_iff ht hu hmono]
    simp only [hmono, not_false_eq_true, true_imp_iff]

theorem arithmetic_epoch : ((unix 0 5).add 1999999999).instant = (unix 2 4).instant ∧
        (unix 0 5).sub (unix 100 0) = clamp ((unix 0 5).difference (unix 100 0)) := by
  have h := (arithmetic_iff (t := unix 0 5) (u := unix 100 0) (d := 1999999999) (by decide) (by decide) (by decide)).mpr
    ⟨fun _ => by decide, fun _ => by unfold SubOk; decide⟩
  exact ⟨(h.1 (by decide)).trans (by decide), h.2.1⟩

theorem add_goes_back : ((unix 0 1).add maxDuration).instant = (unix 0 1).instant + maxDuration - 2 ^ 64 ∧
        ((unix (-9223372037) 145224192).sub (unix 0 1)) = maxDuration := by
  decide +kernel

-- The monotonic readings of two times, if both have one, are in the order of the times.
def Agrees (t u : Time) : Prop :=
  t.mono ≠ 0 → u.mono ≠ 0 → (t.mono < u.mono ↔ t.before u = true) ∧ (t.mono = u.mono ↔ t.equal u = true)

theorem compare_swap (t u : Time) : u.compare t = -t.compare u := by
  unfold compare
  split_ifs <;> omega

theorem compare_agrees_iff (t u : Time)
    : (t.compare u = 0 ↔ t.equal u = true) ∧ (t.compare u = -1 ↔ t.before u = true) ∧
        (t.compare u = 1 ↔ t.after u = true) ↔ t.Agrees u := by
  simp only [Agrees, compare, before, after, equal, Bool.or_eq_true, Bool.and_eq_true, beq_iff_eq, decide_eq_true_eq]
  split_ifs <;> simp <;> omega

theorem after_trans {a b c : Time} (h : a.after c = true) : a.after b = true ∨ b.after c = true := by
  simp only [after, Bool.or_eq_true, Bool.and_eq_true, beq_iff_eq, decide_eq_true_eq] at *
  omega

theorem compare_le_iff (t u : Time) : t.compare u ≤ 0 ↔ ¬t.compare u = 1 := by
  unfold compare
  split_ifs <;> decide

theorem compare_iff (S : Set Time)
    : (∀ a ∈ S, ∀ b ∈ S, ((a.compare b = 0 ↔ a.equal b = true) ∧ (a.compare b = -1 ↔ a.before b = true) ∧
          (a.compare b = 1 ↔ a.after b = true)) ∧ b.compare a = -a.compare b ∧
          ∀ c ∈ S, a.compare b ≤ 0 → b.compare c ≤ 0 → a.compare c ≤ 0) ↔
        ∀ a ∈ S, ∀ b ∈ S, a.Agrees b := by
  simp only [compare_agrees_iff]
  constructor
  . exact fun h a ha b hb => (h a ha b hb).1
  intro h a ha b hb
  refine ⟨h a ha b hb, compare_swap a b, ?_⟩
  intro c hc
  have hab := (compare_agrees_iff a b).mpr (h a ha b hb)
  have hbc := (compare_agrees_iff b c).mpr (h b hb c hc)
  have hac := (compare_agrees_iff a c).mpr (h a ha c hc)
  rw [compare_le_iff, compare_le_iff, compare_le_iff, hab.2.2, hbc.2.2, hac.2.2]
  exact fun h1 h2 h3 => (after_trans h3).elim h1 h2

theorem compare_add_wraps : ∃ t u : Time, u = t.add maxDuration ∧ t.before u = true ∧ t.compare u = 1 :=
  ⟨{ sec := 0, nsec := 0, mono := 1, loc := .utc }, _, rfl, by decide, by decide⟩

end Time
