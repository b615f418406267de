import Goish.Crypto.Bigmod.Lemmas.Modulus
import Goish.Data.Montgomery
import Mathlib.Data.BitVec

open List WordList

namespace Bigmod

open Bits

namespace Modulus

variable {m : Modulus} {x y : List Word}

section Rows

theorem addMul_eq (hz : z.length = n) (hx : x.length = n) (d : Word) : addMul n z x d = addMulVVW z x d := by
  have hsized : ∀ n', z.length = n' → x.length = n' → addMulSized n' z x d = addMulVVW z x d := by
    intro _ hz hx
    unfold addMulSized
    rw [if_pos ⟨hz.ge, hx.ge⟩, take_of_length_le hz.le, take_of_length_le hx.le, drop_of_length_le hz.le]
    simp
  unfold addMul
  split_ifs with h h h
  iterate 3 exact hsized _ (hz.trans h) (hx.trans h)
  rfl

theorem value_mod_word {l : List Word} (hne : l ≠ []) : value l % 2 ^ 64 = (l.headD 0).toNat := by
  rcases l with _ | ⟨_, _⟩
  . contradiction
  rw [value_cons, headD_cons]
  omega

theorem head_eq_zero {z r : List Word} {c y : Word} (hinv : m.nat.headD 0 * m.m0inv = -1) (hpos : 0 < m.size)
    (hz : z.length = m.size) (hr : r.length = m.size) (hy : y = z.headD 0 * m.m0inv)
    (hrow : value r + (2 ^ 64) ^ m.size * c.toNat = value z + value m.nat * y.toNat) : r.headD 0 = 0 := by
  have hzne : z ≠ [] := ne_nil_of_length_pos (by omega)
  have hrne : r ≠ [] := ne_nil_of_length_pos (by omega)
  have hmne : m.nat ≠ [] := ne_nil_of_length_pos hpos
  have hpow : (2 ^ 64) ^ m.size = 2 ^ 64 * (2 ^ 64) ^ (m.size - 1) := by
    rw [← Nat.pow_succ', show (m.size - 1).succ = m.size by omega]
  have hzero : z.headD 0 + m.nat.headD 0 * y = 0 := by
    rw [hy]
    calc z.headD 0 + m.nat.headD 0 * (z.headD 0 * m.m0inv)
      _ = z.headD 0 * (1 + m.nat.headD 0 * m.m0inv) := by ring
      _ = 0 := by rw [hinv]; ring
  have hmod : value r % 2 ^ 64 = 0 := by
    have hleft : (value r + (2 ^ 64) ^ m.size * c.toNat) % 2 ^ 64 = value r % 2 ^ 64 := by
      rw [hpow, mul_assoc, Nat.add_mul_mod_self_left]
    have hcast := congrArg BitVec.toNat hzero
    rw [BitVec.toNat_add, BitVec.toNat_mul, ← value_mod_word hzne, ← value_mod_word hmne, Nat.add_mod_mod,
      ← Nat.add_mod_mod, Nat.mod_add_mod, Nat.mod_mul_mod, Nat.add_mod_mod] at hcast
    rw [← hleft, hrow, hcast]
    rfl
  rw [value_mod_word hrne] at hmod
  exact BitVec.eq_of_toNat_eq hmod

variable {a b t : List Word} {c : Word}

theorem montgomeryLoop_spec (hm : m.Valid) (hinv : m.nat.headD 0 * m.m0inv = -1) (ha : a.length = m.size)
    (ht : t.length = m.size + b.length) (hc : c.toNat ≤ 1)
    (hlt : value (t.take m.size) + (2 ^ 64) ^ m.size * c.toNat < value a + value m.nat)
    : ∃ x c', m.montgomeryLoop a b t c = some (x, c') ∧ x.length = m.size ∧ c'.toNat ≤ 1 ∧
        value x + (2 ^ 64) ^ m.size * c'.toNat < value a + value m.nat ∧
        (2 ^ 64) ^ b.length * (value x + (2 ^ 64) ^ m.size * c'.toNat) ≡
          value (t.take m.size) + (2 ^ 64) ^ m.size * c.toNat + value a * value b [MOD value m.nat] := by
  induction b generalizing t c with
  | nil =>
    rw [length_nil, add_zero] at ht
    rw [take_of_length_le ht.le] at hlt ⊢
    refine ⟨t, c, rfl, ht, hc, hlt, ?_⟩
    simp
    rfl
  | cons d b ih =>
    rw [length_cons] at ht
    have htake : (t.take m.size).length = m.size := by
      rw [length_take]
      omega
    obtain ⟨z, c1, hrow1, hz, hvalue1⟩ := addMulVVW_spec (htake.trans ha.symm) d
    rw [htake] at hz hvalue1
    obtain ⟨r, c2, hrow2, hr, hvalue2⟩ := addMulVVW_spec (x := m.nat) hz (z.headD 0 * m.m0inv)
    rw [hz] at hr hvalue2
    obtain ⟨hsum, hc'⟩ := add64_spec (x := c1) (y := c2) hc
    have hsize : m.size < t.length := by omega
    have hhead := head_eq_zero hinv hm.pos hz hr rfl hvalue2
    have hstore := value_row (add64 c1 c2 c).1 hsize hr
    have hrne : r ≠ [] := by
      have hpos := hm.pos
      exact ne_nil_of_length_pos (by omega)
    have hdigit : (r ++ (t.drop m.size).set 0 (add64 c1 c2 c).1).headD 0 = 0 := by
      cases r with
      | nil => contradiction
      | cons => exact hhead
    rw [hdigit] at hstore
    have hlength := length_row (add64 c1 c2 c).1 hsize hr
    obtain ⟨t', ht'⟩ : ∃ t', r ++ (t.drop m.size).set 0 (add64 c1 c2 c).1 = t' := ⟨_, rfl⟩
    rw [ht'] at hstore hlength
    have hnext : 2 ^ 64 * (value (t'.tail.take m.size) + (2 ^ 64) ^ m.size * (add64 c1 c2 c).2.toNat) =
        value (t.take m.size) + (2 ^ 64) ^ m.size * c.toNat + value a * d.toNat +
          (z.headD 0 * m.m0inv).toNat * value m.nat := by
      simp only [BitVec.toNat_zero, BitVec.ofNat_eq_ofNat, zero_add] at hstore
      linear_combination hstore + hvalue1 + hvalue2 + (2 ^ 64) ^ m.size * hsum
    have hlt' := Montgomery.row_lt hnext hlt d.isLt (z.headD 0 * m.m0inv).isLt
    obtain ⟨x, c', hloop, hx, hcx, hxlt, hmod⟩ := ih (t := t'.tail) (by rw [length_tail, hlength]; omega) hc' hlt'
    refine ⟨x, c', ?_, hx, hcx, hxlt, ?_⟩
    . rw [montgomeryLoop, addMul_eq htake ha]
      simp only [hrow1, Option.bind_eq_bind, Option.bind_some]
      rw [addMul_eq (x := m.nat) hz rfl]
      simp only [hrow2, Option.bind_some, ht']
      exact hloop
    . rw [value_cons, length_cons]
      exact Montgomery.row_modEq hnext hmod

end Rows

structure Montgomery (m : Modulus) : Prop extends m.Valid where
  odd : value m.nat % 2 = 1
  inv : m.nat.headD 0 * m.m0inv = -1

def repr (m : Modulus) (x : List Word) : ZMod (value m.nat) :=
  Montgomery.repr (value m.nat) ((2 ^ 64) ^ m.size) (value x)

theorem Montgomery.coprime (hm : m.Montgomery) : Nat.Coprime ((2 ^ 64) ^ m.size) (value m.nat) := by
  apply Nat.Coprime.pow_left
  apply Nat.Coprime.pow_left
  rw [Nat.coprime_two_left]
  exact Nat.odd_iff.mpr hm.odd

theorem montgomeryMul_spec (hm : m.Montgomery) (ha : m.Reduced a) (hb : m.Reduced b)
    : ∃ r, m.montgomeryMul a b = some r ∧ m.Reduced r ∧ m.repr r = m.repr a * m.repr b := by
  have hzero : value ((reset (m.size * 2)).take m.size) = 0 := by
    unfold reset
    rw [take_replicate]
    exact value_replicate_zero _
  have hpos := Nat.zero_lt_of_lt hm.one_lt
  obtain ⟨_, _, hloop, hx, hc, _, hmod⟩ := montgomeryLoop_spec (b := b) (t := reset (m.size * 2)) (c := 0) hm.toValid
    hm.inv ha.length (by rw [length_reset, hb.length]; omega) (by decide) (by rw [hzero]; simp; omega)
  have halt := ha.lt
  obtain ⟨r, hsub, hr, hvalue⟩ := maybeSubtractModulus_spec hx hc (by omega)
  refine ⟨r, ?_, hr, ?_⟩
  . unfold montgomeryMul
    rw [if_pos ⟨ha.length.ge, hb.length.ge⟩, take_of_length_le ha.length.le, take_of_length_le hb.length.le,
      hloop]
    exact hsub
  apply Montgomery.repr_of_modEq hm.coprime
  rw [hzero, hb.length] at hmod
  simp only [BitVec.ofNat_eq_ofNat, BitVec.toNat_zero, mul_zero, add_zero, zero_add] at hmod
  rw [hvalue]
  exact ((Nat.mod_modEq _ _).mul_left _).trans hmod

theorem one_spec (hm : m.Valid) : ∃ x, m.one = some x ∧ m.Reduced x ∧ value x = 1 := by
  unfold one reset
  obtain ⟨n, hn⟩ := Nat.exists_eq_succ_of_ne_zero hm.pos.ne'
  have hvalue : value ((1 : Word) :: List.replicate n 0) = 1 := by
    rw [value_cons, value_replicate_zero]
    rfl
  rw [hn, replicate_succ]
  refine ⟨_, rfl, ⟨?_, ?_⟩, hvalue⟩
  . simp [hn]
  . rw [hvalue]
    exact hm.one_lt

structure Ready (m : Modulus) : Prop extends m.Montgomery where
  rr : ∃ r, m.rr = some r ∧ m.Reduced r ∧ m.repr r = ((2 ^ 64) ^ m.size : Nat)

theorem montgomeryRepresentation_spec (hm : m.Ready) (hx : m.Reduced x)
    : ∃ r, m.montgomeryRepresentation x = some r ∧ m.Reduced r ∧ m.repr r = value x := by
  obtain ⟨_, hf, hfr, hfactor⟩ := hm.rr
  obtain ⟨r, hmul, hr, hrepr⟩ := montgomeryMul_spec hm.toMontgomery hx hfr
  refine ⟨r, ?_, hr, ?_⟩
  . unfold montgomeryRepresentation
    rwa [hf]
  . rw [hrepr, hfactor]
    exact Montgomery.repr_mul hm.coprime _

theorem montgomeryReduction_spec (hm : m.Montgomery) (hx : m.Reduced x)
    : ∃ r, m.montgomeryReduction x = some r ∧ m.Reduced r ∧ (value r : ZMod (value m.nat)) = m.repr x := by
  obtain ⟨o, ho, hone, hvalue⟩ := one_spec hm.toValid
  obtain ⟨r, hmul, hr, hrepr⟩ := montgomeryMul_spec hm hx hone
  refine ⟨r, ?_, hr, ?_⟩
  . unfold montgomeryReduction
    rwa [ho]
  have hunit : m.repr o * ((2 ^ 64) ^ m.size : Nat) = 1 := by
    unfold repr
    rw [Montgomery.repr_mul hm.coprime, hvalue, Nat.cast_one]
  have hout : (value r : ZMod (value m.nat)) = m.repr r * ((2 ^ 64) ^ m.size : Nat) :=
    (Montgomery.repr_mul hm.coprime _).symm
  rw [hout, hrepr, mul_assoc, hunit, mul_one]

theorem mul_spec (hm : m.Valid) (hready : m.odd = true → m.Ready) (hx : m.Reduced x) (hy : m.Reduced y)
    : ∃ r, m.mul x y = some r ∧ m.Reduced r ∧ value r = value x * value y % value m.nat := by
  unfold mul
  split
  . next hodd =>
    have hm' := hready hodd
    obtain ⟨_, hrep, hu, hurepr⟩ := montgomeryRepresentation_spec hm' hx
    obtain ⟨r, hmul, hr, hrepr⟩ := montgomeryMul_spec hm'.toMontgomery hu hy
    refine ⟨r, ?_, hr, ?_⟩
    . rwa [hrep]
    . apply Montgomery.eq_mod_of_cast hr.lt
      have hout : ∀ z, (value z : ZMod (value m.nat)) = m.repr z * ((2 ^ 64) ^ m.size : Nat) :=
        fun z => (Montgomery.repr_mul hm'.coprime _).symm
      rw [hout r, hrepr, hurepr, mul_assoc, ← hout y, Nat.cast_mul]
  . obtain ⟨t, hrows, _, hvalue⟩ := mulRows_spec (x := x) (y := y) (t := reset (m.size * 2))
      (by rw [length_reset, hx.length, hy.length]; omega)
    obtain ⟨r, hmod, hr, hrvalue⟩ := mod_spec hm t
    refine ⟨r, ?_, hr, ?_⟩
    . rw [if_pos ⟨hx.length.ge, hy.length.ge⟩, take_of_length_le hx.length.le, take_of_length_le hy.length.le,
        hrows]
      exact hmod
    . unfold reset at hvalue
      rw [take_replicate, value_replicate_zero, zero_add] at hvalue
      rw [hrvalue, hvalue]

end Modulus

end Bigmod
