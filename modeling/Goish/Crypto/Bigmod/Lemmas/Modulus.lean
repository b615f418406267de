import Goish.Crypto.Bigmod.Impl.Modulus
import Goish.Crypto.Bigmod.Lemmas.Nat

open List WordList Option

namespace Bigmod

open Bits

namespace Modulus

structure Valid (m : Modulus) : Prop where
  one_lt : 1 < value m.nat
  pos : 0 < m.size
  top : (2 ^ 64) ^ (m.size - 1) ≤ value m.nat

structure Reduced (m : Modulus) (x : List Word) : Prop where
  length : x.length = m.size
  lt : value x < value m.nat

variable {m : Modulus} {x y : List Word}

theorem value_reset (n : Nat) : value (reset n) = 0 :=
  value_replicate_zero n

theorem length_reset (n : Nat) : (reset n).length = n :=
  length_replicate

theorem eq_mod_of_add {r v n : Nat} (hr : r < n) (h : v = r ∨ v = r + n) : r = v % n := by
  rcases h with heq | heq
  . rw [heq, Nat.mod_eq_of_lt hr]
  . rw [heq, Nat.add_mod_right, Nat.mod_eq_of_lt hr]

theorem maybeSubtractModulus_spec (hlen : x.length = m.size) (hc : c.toNat ≤ 1)
    (hlt : value x + (2 ^ 64) ^ m.size * c.toNat < 2 * value m.nat)
    : ∃ r, m.maybeSubtractModulus c x = some r ∧ m.Reduced r ∧
        value r = (value x + (2 ^ 64) ^ m.size * c.toNat) % value m.nat := by
  obtain ⟨t, _, hsub, ht, hu, hvalue⟩ := sub_spec (x := x) (y := m.nat) hlen
  have hM := value_lt m.nat
  have htlt := value_lt t
  rw [ht] at htlt
  rw [hlen] at hvalue ht htlt
  change value m.nat < (2 ^ 64) ^ m.size at hM
  unfold maybeSubtractModulus
  simp only [hsub, bind_eq_bind, bind_some]
  generalize (2 ^ 64) ^ m.size = B at *
  rcases choice_cases hc with rfl | rfl <;> rcases choice_cases hu with rfl | rfl
  case inr.inl =>
    simp at hvalue hlt
    omega
  case inl.inr =>
    rw [assign_spec (.inl (by decide)) (hlen.trans ht.symm), if_neg (by decide)]
    simp at hvalue hlt ⊢
    have hr : value x < value m.nat := by omega
    exact ⟨⟨hlen, hr⟩, eq_mod_of_add hr (by omega)⟩
  all_goals
    rw [assign_spec (.inr (by decide)) (hlen.trans ht.symm), if_pos (by decide)]
    simp at hvalue hlt ⊢
    have hr : value t < value m.nat := by omega
    exact ⟨⟨ht, hr⟩, eq_mod_of_add hr (by omega)⟩

theorem add_spec (hx : m.Reduced x) (hy : m.Reduced y)
    : ∃ r, m.add x y = some r ∧ m.Reduced r ∧ value r = (value x + value y) % value m.nat := by
  obtain ⟨_, _, hadd, hs, hc, hvalue⟩ := Bigmod.add_spec (hx.length.trans hy.length.symm)
  have hxlt := hx.lt
  have hylt := hy.lt
  rw [hx.length] at hs hvalue
  unfold add
  simp only [hadd, bind_eq_bind, bind_some]
  rw [← hvalue]
  apply maybeSubtractModulus_spec hs hc
  omega

theorem sub_spec (hx : m.Reduced x) (hy : m.Reduced y)
    : ∃ r, m.sub x y = some r ∧ m.Reduced r ∧ (value r : ℤ) = ((value x : ℤ) - value y) % value m.nat := by
  obtain ⟨d, _, hsub, hd, hu, hdiff⟩ := Bigmod.sub_spec (hx.length.trans hy.length.symm)
  rw [hx.length] at hd hdiff
  obtain ⟨t, _, hadd, ht, hc, hsum⟩ := Bigmod.add_spec (x := d) (y := m.nat) hd
  have hxlt := hx.lt
  have hylt := hy.lt
  have hM := value_lt m.nat
  have htlt := value_lt t
  rw [ht] at htlt
  rw [hd] at ht hsum htlt
  change value m.nat < (2 ^ 64) ^ m.size at hM
  have hdlt := value_lt d
  rw [hd] at hdlt
  unfold sub
  simp only [hsub, hadd, bind_eq_bind, bind_some]
  generalize (2 ^ 64) ^ m.size = B at *
  rcases choice_cases hu with hu0 | hu1
  . rw [hu0] at hdiff ⊢
    rw [assign_spec (.inl rfl) (hd.trans ht.symm), if_neg (by decide)]
    simp at hdiff
    refine ⟨d, rfl, ⟨hd, by omega⟩, ?_⟩
    rw [Int.emod_eq_of_lt (by omega) (by omega)]
    omega
  rw [hu1] at hdiff ⊢
  rw [assign_spec (.inr rfl) (hd.trans ht.symm), if_pos rfl]
  rcases choice_cases hc with hc0 | hc1
  . rw [hc0] at hsum
    simp at hdiff hsum
    omega
  rw [hc1] at hsum
  simp at hdiff hsum
  refine ⟨t, rfl, ⟨ht, by omega⟩, ?_⟩
  rw [← Int.add_emod_right, Int.emod_eq_of_lt (by omega) (by omega)]
  omega

def sel (need : Word) (x d : List Word) : List Word :=
  if need = 1 then d else x

theorem shiftPass_spec (hneed : need = 0 ∨ need = 1)
    (hx : x.length = n.length) (hd : d.length = n.length) (hc : carry.toNat ≤ 1) (hb : borrow.toNat ≤ 1)
    : ∃ x' d' c b, shiftPass (ctMask need) x d n carry borrow = some (x', d', c, b) ∧ x'.length = n.length ∧
        d'.length = n.length ∧ c.toNat ≤ 1 ∧ b.toNat ≤ 1 ∧
        value x' + (2 ^ 64) ^ n.length * c.toNat = 2 * value (sel need x d) + carry.toNat ∧
        value d' + value n + borrow.toNat = value x' + (2 ^ 64) ^ n.length * b.toNat := by
  induction n generalizing x d carry borrow with
  | nil =>
    have hxnil : x = [] := eq_nil_of_length_eq_zero hx
    have hdnil : d = [] := eq_nil_of_length_eq_zero hd
    subst hxnil hdnil
    exact ⟨[], [], carry, borrow, rfl, rfl, rfl, hc, hb, by simp [sel], by simp⟩
  | cons l n ih =>
    rcases x with _ | ⟨a, x⟩
    . contradiction
    rcases d with _ | ⟨e, d⟩
    . contradiction
    obtain ⟨s, hs⟩ : ∃ s, s = if need = 1 then e else a := ⟨_, rfl⟩
    obtain ⟨hsum, hcarry⟩ := add64_spec (x := s) (y := s) hc
    obtain ⟨hdiff, hborrow⟩ := sub64_spec (x := (add64 s s carry).1) (y := l) hb
    obtain ⟨x', d', c, b, hrest, hx', hd', hc', hb', hdouble, hminus⟩ :=
      ih (by simpa using hx) (by simpa using hd) hcarry hborrow
    refine ⟨(add64 s s carry).1 :: x', (sub64 (add64 s s carry).1 l borrow).1 :: d', c, b, ?_, by simp [hx'],
      by simp [hd'], hc', hb', ?_, ?_⟩
    . rw [shiftPass, select_limb hneed, ← hs]
      simp [hrest]
    . have hsel : value (sel need (a :: x) (e :: d)) = s.toNat + 2 ^ 64 * value (sel need x d) := by
        rw [hs]
        unfold sel
        split <;> rw [value_cons]
      rw [hsel, value_cons, length_cons]
      linear_combination hsum + 2 ^ 64 * hdouble
    . rw [value_cons, value_cons, value_cons, length_cons]
      linear_combination hdiff + 2 ^ 64 * hminus

theorem shiftBit_spec {x d : List Word} (hneed : need = 0 ∨ need = 1)
    (hx : x.length = m.size) (hd : d.length = m.size) (hlt : value (sel need x d) < value m.nat) (hc : carry.toNat ≤ 1)
    : ∃ x' d' c b, shiftPass (ctMask need) x d m.nat carry 0 = some (x', d', c, b) ∧ x'.length = m.size ∧
        d'.length = m.size ∧ (not b ||| c = 0 ∨ not b ||| c = 1) ∧
        value (sel (not b ||| c) x' d') = (2 * value (sel need x d) + carry.toNat) % value m.nat := by
  obtain ⟨x', d', c, b, hpass, hx', hd', hc', hb', hdouble, _⟩ :=
    shiftPass_spec hneed hx hd hc (show (0 : Word).toNat ≤ 1 by decide)
  refine ⟨x', d', c, b, hpass, hx', hd', ?_⟩
  have hxlt := value_lt x'
  have hdlt := value_lt d'
  rw [hx'] at hxlt
  rw [hd'] at hdlt
  generalize (2 ^ 64) ^ m.nat.length = B at *
  generalize value (sel need x d) = s at *
  rw [← hdouble]
  unfold sel
  rcases choice_cases hc' with rfl | rfl <;> rcases choice_cases hb' with rfl | rfl
  case inr.inl =>
    simp at *
    omega
  all_goals refine ⟨by decide, ?_⟩
  case inl.inr =>
    rw [if_neg (by decide)]
    simp at *
    exact eq_mod_of_add (by omega) (by omega)
  all_goals
    rw [if_pos (by decide)]
    simp at *
    exact eq_mod_of_add (by omega) (by omega)

theorem toNat_bit (y : Word) (i : Nat) : (y >>> i &&& 1).toNat = y.toNat / 2 ^ i % 2 := by
  rw [BitVec.toNat_and, BitVec.toNat_ushiftRight, Nat.shiftRight_eq_div_pow, show (1 : Word).toNat = 1 from rfl,
    Nat.and_one_is_mod]

theorem shiftBits_spec (y : Word) (i : Nat) (hneed : need = 0 ∨ need = 1)
    (hx : x.length = m.size) (hd : d.length = m.size) (hlt : value (sel need x d) < value m.nat)
    : ∃ x' d' need', m.shiftBits y i x d need = some (x', d', need') ∧ x'.length = m.size ∧ d'.length = m.size ∧
        (need' = 0 ∨ need' = 1) ∧
        value (sel need' x' d') = (value (sel need x d) * 2 ^ i + y.toNat % 2 ^ i) % value m.nat := by
  induction i generalizing x d need with
  | zero =>
    refine ⟨x, d, need, rfl, hx, hd, hneed, ?_⟩
    rw [pow_zero, mul_one, Nat.mod_one, add_zero, Nat.mod_eq_of_lt hlt]
  | succ i ih =>
    obtain ⟨_, _, _, _, hpass, hx1, hd1, hneed1, hvalue1⟩ := shiftBit_spec hneed hx hd hlt
      (show (y >>> i &&& 1).toNat ≤ 1 by rw [toNat_bit]; omega)
    obtain ⟨x', d', need', hrest, hx', hd', hneed', hvalue'⟩ := ih hneed1 hx1 hd1
      (by rw [hvalue1]; exact Nat.mod_lt _ (by omega))
    refine ⟨x', d', need', ?_, hx', hd', hneed', ?_⟩
    . rwa [shiftBits, hpass]
    have hbit : y.toNat % 2 ^ (i + 1) = y.toNat % 2 ^ i + 2 ^ i * (y.toNat / 2 ^ i % 2) := Nat.mod_pow_succ
    have hsum : value (sel need x d) * 2 ^ (i + 1) + y.toNat % 2 ^ (i + 1) =
        (2 * value (sel need x d) + y.toNat / 2 ^ i % 2) * 2 ^ i + y.toNat % 2 ^ i := by
      rw [hbit]
      ring
    rw [hvalue', hvalue1, toNat_bit, hsum]
    exact ((Nat.mod_modEq _ _).mul_right _).add_right _

theorem shiftIn_spec (hx : m.Reduced x) (y : Word)
    : ∃ r, m.shiftIn x y = some r ∧ m.Reduced r ∧ value r = (value x * 2 ^ 64 + y.toNat) % value m.nat := by
  obtain ⟨x', d', need, hbits, hx', hd', hneed, hvalue⟩ := shiftBits_spec (m := m) y 64 (.inl rfl) hx.length
    (length_reset m.size) (by simpa [sel] using hx.lt)
  rw [show sel 0 x (reset m.size) = x from rfl, Nat.mod_eq_of_lt y.isLt] at hvalue
  refine ⟨sel need x' d', ?_, ?_, hvalue⟩
  . unfold shiftIn
    rw [hbits]
    exact assign_spec hneed (hx'.trans hd'.symm)
  constructor
  . unfold sel
    split
    . exact hd'
    . exact hx'
  . rw [hvalue]
    exact Nat.mod_lt _ (Nat.zero_lt_of_lt hx.lt)

theorem foldlM_shiftIn_spec (l : List Word) (hx : m.Reduced x) : ∃ r, l.foldlM m.shiftIn x = some r ∧ m.Reduced r ∧
        value r = (value x * (2 ^ 64) ^ l.length + value l.reverse) % value m.nat := by
  induction l generalizing x with
  | nil =>
    refine ⟨x, rfl, hx, ?_⟩
    simp [Nat.mod_eq_of_lt hx.lt]
  | cons y l ih =>
    obtain ⟨_, hshift, hx1, hvalue1⟩ := shiftIn_spec hx y
    obtain ⟨r, hrest, hr, hvalue⟩ := ih hx1
    refine ⟨r, ?_, hr, ?_⟩
    . rwa [foldlM_cons, hshift]
    have hsum : value x * (2 ^ 64) ^ (l.length + 1) + ((2 ^ 64) ^ l.length * y.toNat + value l.reverse) =
        (value x * 2 ^ 64 + y.toNat) * (2 ^ 64) ^ l.length + value l.reverse := by
      ring
    rw [hvalue, hvalue1, value_reverse_cons, length_cons, hsum]
    exact ((Nat.mod_modEq _ _).mul_right _).add_right _

theorem mod_spec (hm : m.Valid) (x : List Word)
    : ∃ r, m.mod x = some r ∧ m.Reduced r ∧ value r = value x % value m.nat := by
  have hk : min x.length (m.size - 1) ≤ m.size - 1 := Nat.min_le_right _ _
  have hkx : min x.length (m.size - 1) ≤ x.length := Nat.min_le_left _ _
  unfold mod
  generalize min x.length (m.size - 1) = k at hk hkx
  have hinit : m.Reduced (x.drop (x.length - k) ++ reset (m.size - k)) := by
    constructor
    . rw [length_append, length_drop, length_reset]
      omega
    have hlt := value_lt (x.drop (x.length - k))
    have hpow : (2 ^ 64) ^ (x.drop (x.length - k)).length ≤ (2 ^ 64) ^ (m.size - 1) := by
      apply Nat.pow_le_pow_right (by omega)
      rw [length_drop]
      omega
    have htop := hm.top
    rw [value_append, value_reset, mul_zero, add_zero]
    omega
  obtain ⟨r, hfold, hr, hvalue⟩ := foldlM_shiftIn_spec (x.take (x.length - k)).reverse hinit
  refine ⟨r, hfold, hr, ?_⟩
  have hsplit := value_take_add_drop x (k := x.length - k) (by omega)
  rw [hvalue, value_append, value_reset, mul_zero, add_zero, length_reverse, reverse_reverse,
    length_take, Nat.min_eq_left (by omega), mul_comm, add_comm, hsplit]

end Modulus

end Bigmod
