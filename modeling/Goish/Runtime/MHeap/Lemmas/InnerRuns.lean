import Goish.Runtime.MHeap.Impl.PallocBits

open Word Loop FreeRun BitVec

namespace MHeap

namespace PallocBits.summarize

structure Inner (x : BitVec 64) (y k : Nat) : Prop where
  below : ∃ (i : Nat), i < y ∧ x.getLsbD i = true
  above : ∃ (i : Nat), y + k ≤ i ∧ x.getLsbD i = true
  zeros : ∀ (i : Nat), y ≤ i → i < y + k → x.getLsbD i = false

def Shrunk (x : BitVec 64) (t : Nat) (z : BitVec 64) : Prop :=
  ∀ (i : Nat), z.getLsbD i = true ↔ ∃ (d : Nat), d ≤ t ∧ x.getLsbD (i + d) = true

theorem noInnerZeros_iff (x : BitVec 64)
    : noInnerZeros x = true ↔ ∀ i j, i < j → x.getLsbD j = true → x.getLsbD i = true := by
  unfold noInnerZeros
  rw [decide_eq_true_iff]
  apply and_add_one_eq_zero_iff

namespace Shrunk

theorem zero (x : BitVec 64) : Shrunk x 0 x := by
  intro i
  constructor
  . intro h
    exact ⟨0, Nat.le_refl 0, h⟩
  intro h
  cases h with
  | intro d h =>
    have : d = 0 := by omega
    subst this
    exact h.2

theorem or_shiftRight (h : Shrunk x t z) (hk : k ≤ t + 1) : Shrunk x (t + k) (z ||| z >>> k) := by
  intro i
  rw [getLsbD_or, getLsbD_ushiftRight, Bool.or_eq_true, h i, h (k + i)]
  constructor
  . rintro (hor | hor)
    . cases hor with
      | intro d hd => exact ⟨d, by omega, hd.2⟩
    cases hor with
    | intro d hd =>
      refine ⟨k + d, by omega, ?_⟩
      rw [← hd.2]
      congr 1
      omega
  . intro hex
    cases hex with
    | intro d hd =>
      rcases lt_or_ge d k with _ | _
      . exact Or.inl ⟨d, by omega, hd.2⟩
      refine Or.inr ⟨d - k, by omega, ?_⟩
      rw [← hd.2]
      congr 1
      omega

theorem getLsbD_eq_false (h : Shrunk x t z) (hz : z.getLsbD i = false) (hd : d ≤ t) : x.getLsbD (i + d) = false := by
  cases hx : x.getLsbD (i + d) with
  | false => rfl
  | true =>
    have := (h i).mpr ⟨d, hd, hx⟩
    rw [hz] at this
    contradiction

theorem getLsbD_of_inner (h : Shrunk x t z) (hin : Inner x y k) (hk : t < k) : z.getLsbD y = false := by
  cases hz : z.getLsbD y with
  | false => rfl
  | true =>
    have := (h y).mp hz
    cases this with
    | intro d hd =>
      rw [hin.zeros (y + d) (by omega) (by omega)] at hd
      simp at hd

theorem inner_le (h : Shrunk x t z) (hz : noInnerZeros z = true) (hin : Inner x y k) : k ≤ t := by
  rcases lt_or_ge t k with hlt | hge
  . have hy := h.getLsbD_of_inner hin hlt
    cases hin.above with
    | intro q hq =>
      have hzq := (h q).mpr ⟨0, by omega, hq.2⟩
      rw [(noInnerZeros_iff z).mp hz y q (by omega) hzq] at hy
      contradiction
  . exact hge

end Shrunk

def ShrinkPost (x : BitVec 64) (t : Nat) : Option (BitVec 64 × Nat) → Prop
  | none => ∀ (y l : Nat), Inner x y l → l ≤ t
  | some (z, k) => Shrunk x t z ∧ noInnerZeros z = false ∧ 1 ≤ k ∧ k ≤ t + 1

theorem shrink_spec (x : BitVec 64) : ∀ (fuel p t k : Nat) (z : BitVec 64),
        Shrunk x t z → noInnerZeros z = false → 1 ≤ k → k ≤ t + 1 → p < 64 → p ≤ fuel →
        ShrinkPost x (t + p) (shrink fuel z p k) := by
  intro fuel
  induction fuel with
  | zero =>
    intro p _ _ _ hz hno hk1 _ _ _
    have : p = 0 := by omega
    subst this
    simp only [shrink]
    exact ⟨hz, hno, hk1, by omega⟩
  | succ _ ih =>
    intro p t k z hz hno hk1 hk2 hp _
    unfold shrink
    split
    . next hpos =>
      split
      . next hle =>
        rw [Nat.mod_eq_of_lt hp]
        have hz' := hz.or_shiftRight (k := p) (by omega)
        dsimp only
        cases hno' : noInnerZeros (z ||| z >>> p) with
        | true =>
          intro y l hin
          exact hz'.inner_le hno' hin
        | false => exact ⟨hz', hno', hk1, by omega⟩
      next hgt =>
      rw [Nat.mod_eq_of_lt (by omega : k < 64)]
      have hz' := hz.or_shiftRight (k := k) hk2
      dsimp only
      cases hno' : noInnerZeros (z ||| z >>> k) with
      | true =>
        intro y l hin
        have := hz'.inner_le hno' hin
        omega
      | false =>
        have := ih (p - k) (t + k) (k * 2) _ hz' hno' (by omega) (by omega) (by omega) (by omega)
        rwa [show t + k + (p - k) = t + p by omega] at this
    . have : p = 0 := by omega
      subst this
      exact ⟨hz, hno, hk1, by omega⟩

theorem Inner.of_shiftRight (h : Inner (x >>> c) y k) : Inner x (c + y) k where
  below := by
    cases h.below with
    | intro i hi =>
      rw [getLsbD_ushiftRight] at hi
      exact ⟨c + i, by omega, hi.2⟩
  above := by
    cases h.above with
    | intro i hi =>
      rw [getLsbD_ushiftRight] at hi
      exact ⟨c + i, by omega, hi.2⟩
  zeros := by
    intro i _ _
    have := h.zeros (i - c) (by omega) (by omega)
    rwa [getLsbD_ushiftRight, show c + (i - c) = i by omega] at this

theorem Shrunk.shiftRight (h : Shrunk x t z) (c : Nat) : Shrunk (x >>> c) t (z >>> c) := by
  intro i
  rw [getLsbD_ushiftRight, h]
  simp only [getLsbD_ushiftRight, add_assoc]

structure LowestZeros (z : BitVec 64) (a b : Nat) : Prop where
  pos : 0 < b
  ones : ∀ (i : Nat), i < a → z.getLsbD i = true
  zeros : ∀ (i : Nat), a ≤ i → i < a + b → z.getLsbD i = false
  one : z.getLsbD (a + b) = true

theorem lowestZeros (z : BitVec 64) (h : noInnerZeros z = false)
    : LowestZeros z (trailingZeros (~~~z)) (trailingZeros (z >>> trailingZeros (~~~z))) := by
  have hex : ∃ i j, i < j ∧ z.getLsbD j = true ∧ z.getLsbD i = false := by
    apply Classical.byContradiction
    intro hall
    have : noInnerZeros z = true := by
      rw [noInnerZeros_iff]
      intro i j hij hj
      cases hi : z.getLsbD i with
      | true => rfl
      | false => exact absurd ⟨i, j, hij, hj, hi⟩ hall
    rw [h] at this
    contradiction
  obtain ⟨i, j, _, hj, hi⟩ := hex
  have hjw := lt_of_getLsbD hj
  have hle := trailingZeros_not_le hi (by omega)
  have hne : z >>> trailingZeros (~~~z) ≠ 0#64 := by
    intro h0
    have : (z >>> trailingZeros (~~~z)).getLsbD (j - trailingZeros (~~~z)) = false := by
      rw [h0]
      simp
    rw [getLsbD_ushiftRight, show trailingZeros (~~~z) + (j - trailingZeros (~~~z)) = j by omega,
      hj] at this
    contradiction
  have hone := getLsbD_trailingZeros hne
  rw [getLsbD_ushiftRight] at hone
  constructor
  . apply Nat.pos_of_ne_zero
    intro h0
    rw [h0, add_zero, getLsbD_trailingZeros_not (by omega)] at hone
    contradiction
  . intro i hi
    exact getLsbD_of_lt_trailingZeros_not hi
  . intro i _ _
    have := getLsbD_of_lt_trailingZeros (x := z >>> trailingZeros (~~~z))
      (i := i - trailingZeros (~~~z)) (by omega)
    rwa [getLsbD_ushiftRight,
      show trailingZeros (~~~z) + (i - trailingZeros (~~~z)) = i by omega] at this
  . exact hone

section Lowest

variable (hz : Shrunk x t z) (hl : LowestZeros z a b) (ha : 0 < a)
include hz hl

theorem LowestZeros.getLsbD_eq_false (h1 : a ≤ i) (h2 : i < a + b + t) : x.getLsbD i = false := by
  have hb := hl.pos
  rcases lt_or_ge i (a + b) with hlt | _
  . exact hz.getLsbD_eq_false (d := 0) (hl.zeros i h1 hlt) (by omega)
  . have := hz.getLsbD_eq_false (d := i - (a + b - 1)) (hl.zeros (a + b - 1) (by omega) (by omega))
      (by omega)
    rwa [show a + b - 1 + (i - (a + b - 1)) = i by omega] at this

theorem LowestZeros.getLsbD_eq_true : x.getLsbD (a + b + t) = true := by
  obtain ⟨d, _, hx⟩ := (hz (a + b)).mp hl.one
  rcases lt_or_ge d t with _ | _
  . rw [hl.getLsbD_eq_false hz (by omega) (by omega)] at hx
    contradiction
  . rwa [show d = t by omega] at hx

include ha in
theorem LowestZeros.inner : Inner x a (t + b) where
  below := by
    obtain ⟨d, _, hx⟩ := (hz (a - 1)).mp (hl.ones (a - 1) (by omega))
    rcases Nat.eq_zero_or_pos d with h0 | _
    . subst h0
      exact ⟨a - 1, by omega, hx⟩
    . rw [hl.getLsbD_eq_false hz (by omega) (by omega)] at hx
      contradiction
  above := ⟨a + b + t, by omega, hl.getLsbD_eq_true hz⟩
  zeros := by
    intro _ h1 _
    exact hl.getLsbD_eq_false hz h1 (by omega)

theorem LowestZeros.inner_cases (hin : Inner x y l) : l ≤ t + b ∨ Inner (x >>> (a + b)) (y - (a + b)) l := by
  have hone := hl.getLsbD_eq_true hz
  cases lt_or_ge (a + b + t) y with
  | inr hle =>
    -- The run ends below the one above the lowest zeros.
    left
    rcases lt_or_ge t l with hlt | hle
    . have hy := hz.getLsbD_of_inner hin hlt
      have hay : a ≤ y := by
        rcases lt_or_ge y a with h | h
        . rw [hl.ones y h] at hy
          contradiction
        . exact h
      rcases lt_or_ge (a + b + t) (y + l) with h | h
      . rw [hin.zeros _ hle h] at hone
        contradiction
      . omega
    . omega
  | inl =>
    right
    constructor
    . refine ⟨t, by omega, ?_⟩
      rwa [getLsbD_ushiftRight]
    . obtain ⟨i, h1, h2⟩ := hin.above
      refine ⟨i - (a + b), by omega, ?_⟩
      rwa [getLsbD_ushiftRight, show a + b + (i - (a + b)) = i by omega]
    . intro _ _ _
      rw [getLsbD_ushiftRight]
      exact hin.zeros _ (by omega) (by omega)

end Lowest

structure IsMostInner (x : BitVec 64) (m r : Nat) : Prop where
  le : m ≤ r
  run : r = m ∨ ∃ (y : Nat), Inner x y r
  max : ∀ (y l : Nat), Inner x y l → l ≤ r

theorem innerRuns_spec : ∀ (fuel : Nat) (x z : BitVec 64) (most p k t : Nat),
        Shrunk x t z → z.getLsbD 0 = true → noInnerZeros z = false → 1 ≤ k → k ≤ t + 1 →
        t + p = most → p < 64 → (∀ (i : Nat), fuel ≤ i → z.getLsbD i = false) →
        IsMostInner x most (innerRuns fuel z most p k) := by
  intro fuel
  induction fuel with
  | zero =>
    intro _ _ _ _ _ _ _ hz0 _ _ _ _ _ htop
    rw [htop 0 (by omega)] at hz0
    contradiction
  | succ _ ih =>
    intro x z most p k t hz hz0 hno hk1 hk2 hp hp64 htop
    have hshrink := shrink_spec x p p t k z hz hno hk1 hk2 hp64 (by omega)
    unfold innerRuns
    cases hs : shrink p z p k with
    | none =>
      rw [hs] at hshrink
      rw [hp] at hshrink
      exact ⟨le_rfl, Or.inl rfl, hshrink⟩
    | some res =>
      obtain ⟨z1, k1⟩ := res
      rw [hs, hp] at hshrink
      dsimp only
      obtain ⟨hz1, hno1, hk11, hk12⟩ := hshrink
      have hl := lowestZeros z1 hno1
      have hbit0 : z1.getLsbD 0 = true := by
        obtain ⟨d, _, hx⟩ := (hz 0).mp hz0
        exact (hz1 0).mpr ⟨d, by omega, hx⟩
      generalize ha : trailingZeros (~~~z1) = a at hl
      generalize hb : trailingZeros (z1 >>> a) = b at hl
      have hab : a + b < 64 := lt_of_getLsbD hl.one
      have hbpos := hl.pos
      have hapos : 0 < a := by
        apply Nat.pos_of_ne_zero
        intro _
        rw [hl.zeros 0 (by omega) (by omega)] at hbit0
        contradiction
      rw [Nat.mod_eq_of_lt (show a < 64 by omega), hb, Nat.mod_eq_of_lt (show b < 64 by omega)]
      rw [← shiftRight_add]
      have hz3 := hz1.shiftRight (a + b)
      have hfound := hl.inner hz1 hapos
      split
      . next hno3 =>
        refine ⟨by omega, Or.inr ⟨a, hfound⟩, ?_⟩
        intro y l hin
        rcases hl.inner_cases hz1 hin with hle | hin
        . exact hle
        . have := hz3.inner_le hno3 hin
          omega
      next hno3 =>
      have hrec := ih (x >>> (a + b)) (z1 >>> (a + b)) (most + b) b k1 most hz3
        (by rw [getLsbD_ushiftRight]; exact hl.one) (by simpa using hno3) hk11 hk12 rfl
        (by omega) (by
          intro i _
          rw [getLsbD_ushiftRight]
          cases hz1i : z1.getLsbD (a + b + i) with
          | false => rfl
          | true =>
            obtain ⟨d, _, hx⟩ := (hz1 _).mp hz1i
            have := (hz (a + b + i + d)).mpr ⟨0, by omega, hx⟩
            rw [htop _ (by omega)] at this
            contradiction)
      refine ⟨by have := hrec.le; omega, ?_, ?_⟩
      . right
        rcases hrec.run with heq | hex
        . rw [heq]
          exact ⟨a, hfound⟩
        . obtain ⟨_, hin⟩ := hex
          exact ⟨_, hin.of_shiftRight⟩
      . intro y l hin
        rcases hl.inner_cases hz1 hin with _ | hin
        . have := hrec.le
          omega
        . exact hrec.max _ _ hin

theorem secondPass_spec (x : BitVec 64) (most : Nat) (hx : x ≠ 0#64) (hmost : most < 64)
    : IsMostInner x most (secondPass most x) := by
  unfold secondPass
  have ht := trailingZeros_lt hx
  rw [Nat.mod_eq_of_lt ht]
  generalize htz : trailingZeros x = a
  -- A one below an inner run is not among the trailing zeros.
  have hshift : ∀ (y l : Nat), Inner x y l → Inner (x >>> a) (y - a) l := by
    intro y l hin
    obtain ⟨i, h1, h2⟩ := hin.below
    obtain ⟨j, h3, h4⟩ := hin.above
    have hai : a ≤ i := by
      rcases lt_or_ge i a with hlt | hge
      . rw [← htz] at hlt
        rw [getLsbD_of_lt_trailingZeros hlt] at h2
        contradiction
      . exact hge
    constructor
    . refine ⟨i - a, by omega, ?_⟩
      rwa [getLsbD_ushiftRight, show a + (i - a) = i by omega]
    . refine ⟨j - a, by omega, ?_⟩
      rwa [getLsbD_ushiftRight, show a + (j - a) = j by omega]
    . intro _ _ _
      rw [getLsbD_ushiftRight]
      exact hin.zeros _ (by omega) (by omega)
  dsimp only
  split
  . next hno =>
    refine ⟨le_rfl, Or.inl rfl, ?_⟩
    intro y l hin
    have := (Shrunk.zero _).inner_le hno (hshift y l hin)
    omega
  next hno =>
  have hbit : (x >>> a).getLsbD 0 = true := by
    rw [getLsbD_ushiftRight, add_zero, ← htz]
    exact getLsbD_trailingZeros hx
  have := innerRuns_spec 64 (x >>> a) (x >>> a) most most 1 0 (Shrunk.zero _) hbit (by simpa using hno)
    (by omega) (by omega) (by omega) hmost (by
      intro i hi
      exact getLsbD_of_ge _ _ hi)
  refine ⟨this.le, ?_, ?_⟩
  . rcases this.run with heq | hex
    . exact Or.inl heq
    . obtain ⟨_, hin⟩ := hex
      exact Or.inr ⟨_, hin.of_shiftRight⟩
  . intro y l hin
    exact this.max _ _ (hshift y l hin)

end PallocBits.summarize

end MHeap
