import Goish.Math.Big.Lemmas.Int
import Goish.Math.Big.Lemmas.Bitwise
import Goish.Math.Big.Lemmas.Conv

open Limbs

namespace Big

open Denotes

inductive Produced (ok : List UInt8 → Prop) : Int → Prop where
  | zero : Produced ok zero
  | setInt64 (v : Int64) : Produced ok (setInt64 v)
  | setUint64 (v : UInt64) : Produced ok (setUint64 v)
  | setBytes (buf : List UInt8) : Produced ok (setBytes buf)
  | setBits (words : List UInt64) : Produced ok (setBits words)
  | setString (hz : Produced ok z) (s : List UInt8) (base : ℤ) : Produced ok (setString z s base).1
  | unmarshalText (hz : Produced ok z) (text : List UInt8) : Produced ok (unmarshalText z text).1
  | gobDecode (hz : Produced ok z) (buf : List UInt8) (hok : ok buf) : Produced ok (gobDecode z buf).1
  | add (hx : Produced ok x) (hy : Produced ok y) : Produced ok (add x y)
  | sub (hx : Produced ok x) (hy : Produced ok y) : Produced ok (sub x y)
  | mul (hx : Produced ok x) (hy : Produced ok y) : Produced ok (mul x y)
  | neg (hx : Produced ok x) : Produced ok (neg x)
  | abs (hx : Produced ok x) : Produced ok (abs x)
  | lsh (hx : Produced ok x) (s : UInt64) : Produced ok (lsh x s)
  | rsh (hx : Produced ok x) (s : UInt64) : Produced ok (rsh x s)
  | and (hx : Produced ok x) (hy : Produced ok y) : Produced ok (and x y)
  | andNot (hx : Produced ok x) (hy : Produced ok y) : Produced ok (andNot x y)
  | or (hx : Produced ok x) (hy : Produced ok y) : Produced ok (or x y)
  | xor (hx : Produced ok x) (hy : Produced ok y) : Produced ok (xor x y)
  | not (hx : Produced ok x) : Produced ok (not x)
  | setBit (hx : Produced ok x) (i : ℤ) (b : UInt64) (hz : setBit x i b = some z) : Produced ok z

def withBit (m : ℤ) (i : Nat) (b : UInt64) : ℤ :=
  if b = 1 then Int.lor m (2 ^ i : Nat) else Int.ldiff m (2 ^ i : Nat)

structure Exact (x y : Int) : Prop where
  add : (add x y).toInt = x.toInt + y.toInt
  sub : (sub x y).toInt = x.toInt - y.toInt
  mul : (mul x y).toInt = x.toInt * y.toInt
  neg : (neg x).toInt = -x.toInt
  abs : (abs x).toInt = |x.toInt|
  lsh (s : UInt64) : (lsh x s).toInt = x.toInt * 2 ^ s.toNat
  rsh (s : UInt64) : (rsh x s).toInt = x.toInt / 2 ^ s.toNat
  and : (and x y).toInt = Int.land x.toInt y.toInt
  andNot : (andNot x y).toInt = Int.ldiff x.toInt y.toInt
  or : (or x y).toInt = Int.lor x.toInt y.toInt
  xor : (xor x y).toInt = Int.xor x.toInt y.toInt
  not : (not x).toInt = Int.lnot x.toInt
  setBit (i : ℤ) (b : UInt64) : 0 ≤ i → b = 0 ∨ b = 1 →
    ∃ z, setBit x i b = some z ∧ z.toInt = withBit x.toInt i.toNat b

variable {x y z : Int} {m n : ℤ}

theorem neg_denotes (hx : Denotes x m) : Denotes (neg x) (-m) := by
  apply signed _ hx.abs_canonical
  cases hx with
  | nonneg => rfl
  | neg => simp

theorem sub_denotes (hx : Denotes x m) (hy : Denotes y n) : Denotes (sub x y) (m - n) := by
  have hneg := neg_denotes hy
  unfold neg at hneg
  rw [Bool.and_comm] at hneg
  rw [Int.sub_eq_add_neg]
  exact addSigned_denotes hx hneg

theorem mul_denotes (hx : Denotes x m) (hy : Denotes y n) : Denotes (mul x y) (m * n) := by
  apply signed _ (mulLimbs_canonical _ _)
  rw [mulLimbs_value]
  cases hx with
  | nonneg | neg =>
    cases hy with
    | nonneg | neg => simp

theorem abs_denotes (hx : Denotes x m) : Denotes (abs x) |m| := by
  apply of_nonneg hx.abs_canonical
  rw [← hx.natAbs_eq, Int.natCast_natAbs]

inductive Complement : Int → ℤ → Prop where
  | nonneg (l : List UInt32) : Complement { neg := false, abs := l } (value l)
  | neg (l : List UInt32) : Complement { neg := true, abs := l } (Int.negSucc (value (subLimbs l [1])))

theorem Denotes.complement (hx : Denotes x m) : Complement x m := by
  cases hx with
  | nonneg => exact .nonneg _
  | @neg l _ hpos =>
    have hsub : -(value l : ℤ) = Int.negSucc (value (subLimbs l [1])) := by
      rw [subLimbs_eq (by decide) (by rw [value_singleton]; exact hpos), value_singleton, UInt32.toNat_one]
      omega
    rw [hsub]
    exact .neg l

theorem denotes_negSucc (l : List UInt32) (hk : value l = k)
    : Denotes { neg := true, abs := addLimbs l [1] } (Int.negSucc k) := by
  have hvalue := addLimbs_value l [1]
  rw [value_singleton, UInt32.toNat_one, hk] at hvalue
  apply of_neg (addLimbs_canonical _ _)
  all_goals omega

theorem lsh_denotes (hx : Denotes x m) (s : UInt64) : Denotes (lsh x s) (m * 2 ^ s.toNat) := by
  unfold lsh
  dsimp only
  rw [Bool.and_comm]
  apply signed _ (lshLimbs_canonical _ _)
  rw [lshLimbs_value]
  cases hx with
  | nonneg | neg => simp

theorem negSucc_ediv_two_pow (k s : Nat) : Int.negSucc k / 2 ^ s = Int.negSucc (k / 2 ^ s) := by
  rw [Int.negSucc_ediv _ (Int.pow_pos (by omega)), Int.negSucc_eq]
  congr 2

theorem rsh_denotes (hx : Denotes x m) (s : UInt64) : Denotes (rsh x s) (m / 2 ^ s.toNat) := by
  cases hx.complement
  . apply of_nonneg (rshLimbs_canonical _ s.toNat)
    rw [rshLimbs_value]
    simp
  . rw [negSucc_ediv_two_pow]
    exact denotes_negSucc _ (rshLimbs_value _ _)

section

variable (hx : Denotes x m) (hy : Denotes y n)
include hx hy

theorem and_denotes : Denotes (and x y) (Int.land m n) := by
  cases hx.complement
  . cases hy.complement
    . exact of_nonneg (andLimbs_canonical _ _) (congrArg _ (andLimbs_value _ _))
    . exact of_nonneg (andNotLimbs_canonical _ _) (congrArg _ (andNotLimbs_value _ _))
  . cases hy.complement
    . exact of_nonneg (andNotLimbs_canonical _ _) (congrArg _ (andNotLimbs_value _ _))
    . exact denotes_negSucc _ (orLimbs_value _ _)

theorem andNot_denotes : Denotes (andNot x y) (Int.ldiff m n) := by
  cases hx.complement
  . cases hy.complement
    . exact of_nonneg (andNotLimbs_canonical _ _) (congrArg _ (andNotLimbs_value _ _))
    . exact of_nonneg (andLimbs_canonical _ _) (congrArg _ (andLimbs_value _ _))
  . cases hy.complement
    . exact denotes_negSucc _ (orLimbs_value _ _)
    . exact of_nonneg (andNotLimbs_canonical _ _) (congrArg _ (andNotLimbs_value _ _))

theorem or_denotes : Denotes (or x y) (Int.lor m n) := by
  cases hx.complement
  . cases hy.complement
    . exact of_nonneg (orLimbs_canonical _ _) (congrArg _ (orLimbs_value _ _))
    . exact denotes_negSucc _ (andNotLimbs_value _ _)
  . cases hy.complement
    . exact denotes_negSucc _ (andNotLimbs_value _ _)
    . exact denotes_negSucc _ (andLimbs_value _ _)

end

theorem isEmpty_addLimbs_one (l : List UInt32) : (addLimbs l [1]).isEmpty = false := by
  rw [List.isEmpty_eq_false_iff, Ne, ← (addLimbs_canonical l [1]).value_eq_zero_iff, addLimbs_value,
    value_singleton, UInt32.toNat_one]
  omega

theorem denotes_signed_negSucc (l : List UInt32) (hk : value l = k)
    : Denotes { neg := !(addLimbs l [1]).isEmpty, abs := addLimbs l [1] } (Int.negSucc k) := by
  rw [isEmpty_addLimbs_one]
  exact denotes_negSucc l hk

theorem xor_denotes (hx : Denotes x m) (hy : Denotes y n) : Denotes (xor x y) (Int.xor m n) := by
  cases hx.complement
  . cases hy.complement
    . exact of_nonneg (xorLimbs_canonical _ _) (congrArg _ (xorLimbs_value _ _))
    . exact denotes_signed_negSucc _ (xorLimbs_value _ _)
  . cases hy.complement
    . exact denotes_signed_negSucc _ ((xorLimbs_value _ _).trans (Nat.xor_comm _ _))
    . exact of_nonneg (xorLimbs_canonical _ _) (congrArg _ (xorLimbs_value _ _))

theorem not_denotes (hx : Denotes x m) : Denotes (not x) (Int.lnot m) := by
  cases hx.complement
  . exact denotes_negSucc _ rfl
  . exact nonneg (subLimbs_canonical _ _)

theorem setBit_denotes (hx : Denotes x m) (hi : 0 ≤ i) (hb : b = 0 ∨ b = 1)
    : ∃ z, setBit x i b = some z ∧ Denotes z (withBit m i.toNat b) := by
  unfold setBit withBit
  rw [if_neg (by omega)]
  rcases hb with rfl | rfl
  . rw [if_neg (show ¬((0 : UInt64) ≠ 0 ∧ (0 : UInt64) ≠ 1) by decide), if_neg (show ¬(0 : UInt64) = 1 by decide)]
    cases hx.complement
    . exact ⟨_, rfl, of_nonneg (limbSetBit_canonical _ _ _) (congrArg _ (limbSetBit_zero_value _ _))⟩
    . exact ⟨_, rfl, denotes_signed_negSucc _ (limbSetBit_one_value _ _)⟩
  . rw [if_neg (show ¬((1 : UInt64) ≠ 0 ∧ (1 : UInt64) ≠ 1) by decide), if_pos (show (1 : UInt64) = 1 from rfl)]
    cases hx.complement
    . exact ⟨_, rfl, of_nonneg (limbSetBit_canonical _ _ _) (congrArg _ (limbSetBit_one_value _ _))⟩
    . exact ⟨_, rfl, denotes_signed_negSucc _ (limbSetBit_zero_value _ _)⟩

theorem scanInt_signed_denotes (h : scanInt bytes base = some (s, l))
    : Denotes { neg := s && !l.isEmpty, abs := l } (if s then -(value l : ℤ) else value l) := by
  rw [Bool.and_comm]
  exact signed s (scanInt_canonical h) rfl

theorem setString_canonical (hz : z.Canonical) (s : List UInt8) (base : ℤ) : (setString z s base).1.Canonical := by
  unfold setString
  split
  . next hscan => exact (denotes_iff.mp (scanInt_signed_denotes hscan)).1
  . exact hz

theorem unmarshalText_canonical (hz : z.Canonical) (text : List UInt8) : (unmarshalText z text).1.Canonical := by
  unfold unmarshalText
  split
  . next hscan => exact (denotes_iff.mp (scanInt_signed_denotes hscan)).1
  . exact hz

def GobCanonical (buf : List UInt8) : Prop :=
  buf.head? = some 3 → ∃ b ∈ buf.tail, b ≠ 0

theorem gob_sign (b : UInt8) (hversion : b >>> 1 = intGobVersion) : (b &&& 1 != 0) = true ↔ b = 3 := by
  have hhalf : b.toNat / 2 = 1 := by
    rwa [← UInt8.toNat_inj, UInt8.toNat_shiftRight, Nat.shiftRight_eq_div_pow] at hversion
  rw [bne_iff_ne, Ne, ← UInt8.toNat_inj, ← UInt8.toNat_inj, UInt8.toNat_and, UInt8.toNat_one, Nat.and_one_is_mod,
    UInt8.toNat_zero, show (3 : UInt8).toNat = 3 from rfl]
  omega

theorem gobDecode_canonical_iff (hz : z.Canonical) (buf : List UInt8)
    : (gobDecode z buf).1.Canonical ↔ GobCanonical buf := by
  unfold gobDecode GobCanonical
  split
  . simp
    exact ⟨canonical_nil, fun _ => rfl⟩
  next b buf =>
  split
  . next hversion =>
    constructor
    . intro _ hhead
      rw [List.head?_cons, Option.some.injEq] at hhead
      rw [hhead] at hversion
      exact absurd (by decide) hversion
    . intro _
      exact hz
  next hversion =>
  rw [Decidable.not_not] at hversion
  have hnil := beBytesToLimbs_eq_nil_iff buf
  rw [List.head?_cons, Option.some.injEq, List.tail_cons, ← gob_sign b hversion]
  constructor
  . intro hcanon hsign
    apply Decidable.byContradiction
    intro hnone
    have hempty := hnil.mpr (by simpa using hnone)
    have := hcanon.neg hempty
    rw [hsign] at this
    contradiction
  . intro hbytes
    refine ⟨beBytesToLimbs_canonical buf, ?_⟩
    intro hempty
    apply Bool.eq_false_iff.mpr
    intro hsign
    obtain ⟨b, hmem, hne⟩ := hbytes hsign
    exact hne (hnil.mp hempty b hmem)

theorem Int.Canonical.denotes (hx : x.Canonical) : Denotes x x.toInt :=
  denotes_iff.mpr ⟨hx, rfl⟩

theorem Denotes.canonical (hx : Denotes x m) : x.Canonical :=
  (denotes_iff.mp hx).1

theorem setBit_eq_some (h : setBit x i b = some z) : 0 ≤ i ∧ (b = 0 ∨ b = 1) := by
  unfold setBit at h
  split at h
  . contradiction
  next hi =>
  split at h
  . contradiction
  next hb =>
  refine ⟨by omega, ?_⟩
  rwa [Decidable.not_and_iff_or_not, Decidable.not_not, Decidable.not_not] at hb

theorem Produced.canonical (hx : Produced GobCanonical x) : x.Canonical := by
  induction hx with
  | zero => exact (nonneg canonical_nil).canonical
  | setInt64 v => exact (setInt64_denotes v).canonical
  | setUint64 v => exact (nonneg (u64ToLimbs_canonical v)).canonical
  | setBytes buf => exact (nonneg (beBytesToLimbs_canonical buf)).canonical
  | setBits words => exact (nonneg (wordsToLimbs_canonical words)).canonical
  | setString _ s base hz => exact setString_canonical hz s base
  | unmarshalText _ text hz => exact unmarshalText_canonical hz text
  | gobDecode _ buf hok hz => exact (gobDecode_canonical_iff hz buf).mpr hok
  | add _ _ hx hy => exact (addSigned_denotes hx.denotes hy.denotes).canonical
  | sub _ _ hx hy => exact (sub_denotes hx.denotes hy.denotes).canonical
  | mul _ _ hx hy => exact (mul_denotes hx.denotes hy.denotes).canonical
  | neg _ hx => exact (neg_denotes hx.denotes).canonical
  | abs _ hx => exact (abs_denotes hx.denotes).canonical
  | lsh _ s hx => exact (lsh_denotes hx.denotes s).canonical
  | rsh _ s hx => exact (rsh_denotes hx.denotes s).canonical
  | and _ _ hx hy => exact (and_denotes hx.denotes hy.denotes).canonical
  | andNot _ _ hx hy => exact (andNot_denotes hx.denotes hy.denotes).canonical
  | or _ _ hx hy => exact (or_denotes hx.denotes hy.denotes).canonical
  | xor _ _ hx hy => exact (xor_denotes hx.denotes hy.denotes).canonical
  | not _ hx => exact (not_denotes hx.denotes).canonical
  | setBit _ i b hz hx =>
    obtain ⟨hi, hb⟩ := setBit_eq_some hz
    obtain ⟨_, hz', hdenotes⟩ := setBit_denotes hx.denotes hi hb
    rw [hz, Option.some.injEq] at hz'
    rw [hz']
    exact hdenotes.canonical

theorem Denotes.toInt_eq (hx : Denotes x m) : x.toInt = m :=
  (denotes_iff.mp hx).2

theorem exact_of_canonical (hx : x.Canonical) (hy : y.Canonical) : Exact x y where
  add := (addSigned_denotes hx.denotes hy.denotes).toInt_eq
  sub := (sub_denotes hx.denotes hy.denotes).toInt_eq
  mul := (mul_denotes hx.denotes hy.denotes).toInt_eq
  neg := (neg_denotes hx.denotes).toInt_eq
  abs := (abs_denotes hx.denotes).toInt_eq
  lsh s := (lsh_denotes hx.denotes s).toInt_eq
  rsh s := (rsh_denotes hx.denotes s).toInt_eq
  and := (and_denotes hx.denotes hy.denotes).toInt_eq
  andNot := (andNot_denotes hx.denotes hy.denotes).toInt_eq
  or := (or_denotes hx.denotes hy.denotes).toInt_eq
  xor := (xor_denotes hx.denotes hy.denotes).toInt_eq
  not := (not_denotes hx.denotes).toInt_eq
  setBit i b hi hb := by
    obtain ⟨z, hz, hdenotes⟩ := setBit_denotes hx.denotes hi hb
    exact ⟨z, hz, hdenotes.toInt_eq⟩

theorem int_exact (x : Int) (hx : Produced GobCanonical x) : x.Canonical ∧ (∀ y, Produced GobCanonical y → Exact x y) ∧
        ∀ buf, (gobDecode x buf).1.Canonical ↔ GobCanonical buf := by
  refine ⟨hx.canonical, ?_, ?_⟩
  . intro y hy
    exact exact_of_canonical hx.canonical hy.canonical
  . intro buf
    exact gobDecode_canonical_iff hx.canonical buf

theorem int_exact_borrow : (sub (setInt64 3) (setInt64 5)).Canonical ∧ (sub (setInt64 3) (setInt64 5)).toInt = 3 - 5 ∧
        ¬ (gobDecode zero [3, 0]).1.Canonical := by
  refine ⟨?_, ?_, ?_⟩
  . exact (int_exact _ (.sub (.setInt64 3) (.setInt64 5))).1
  . exact ((int_exact _ (.setInt64 3)).2.1 _ (.setInt64 5)).sub
  . rw [(int_exact zero .zero).2.2 [3, 0]]
    simp [GobCanonical]

theorem int_negative_zero : ∃ x, Produced (fun _ => True) x ∧ ¬ x.Canonical ∧ x.toInt = 0 ∧ absCmp x.abs [1] = .lt ∧
        (not x).toInt ≠ Int.lnot x.toInt ∧ (rsh x 1).toInt ≠ x.toInt / 2 ^ 1 := by
  refine ⟨_, .gobDecode .zero [3] trivial, ?_, by decide, by decide, by decide, by decide⟩
  intro h
  have := h.neg rfl
  contradiction

end Big
