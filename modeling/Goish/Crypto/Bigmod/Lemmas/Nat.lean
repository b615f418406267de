import Goish.Crypto.Bigmod.Impl.Nat
import Goish.Data.WordList
import Goish.Math.Bits.Lemmas.Bits
import Mathlib.Tactic.LinearCombination

open List WordList

namespace Bigmod

open Bits

section Choice

variable {c : Word}

theorem choice_cases (h : c.toNat ≤ 1) : c = 0 ∨ c = 1 := by
  rcases Nat.le_one_iff_eq_zero_or_eq_one.mp h with hzero | hone
  . exact .inl (BitVec.eq_of_toNat_eq hzero)
  . exact .inr (BitVec.eq_of_toNat_eq hone)

theorem borrow_eq (x y : Word) : (sub64 x y 0).2 = if x.toNat < y.toNat then 1 else 0 := by
  obtain ⟨hvalue, hle⟩ := sub64_spec (x := x) (y := y) (c := 0) (by decide)
  rcases choice_cases hle with hzero | hone
  . rw [hzero] at hvalue ⊢
    rw [if_neg]
    simp at hvalue
    omega
  . rw [hone] at hvalue ⊢
    rw [if_pos]
    simp at hvalue
    omega

theorem ctEq_eq (x y : Word) : ctEq x y = if x = y then 1 else 0 := by
  unfold ctEq
  rw [borrow_eq, borrow_eq]
  split
  . next hlt =>
    have hne : x ≠ y := by
      rintro rfl
      omega
    rw [if_neg (by omega), if_neg hne]
    decide
  next hge =>
  split
  . next hlt =>
    have hne : x ≠ y := by
      rintro rfl
      omega
    rw [if_neg hne]
    decide
  . next hle =>
    have heq : x = y := BitVec.eq_of_toNat_eq (by omega)
    rw [if_pos heq]
    decide

end Choice

section Assign

variable {on : Word} {x y : List Word}

theorem select_limb (hon : on = 0 ∨ on = 1) (a b : Word) : a ^^^ (ctMask on &&& (a ^^^ b)) = if on = 1 then b else a := by
  rcases hon with hzero | hone
  . rw [hzero, if_neg (by decide)]
    simp [ctMask]
  . have hmask : ctMask 1 = BitVec.allOnes 64 := by decide
    rw [hone, if_pos rfl, hmask, BitVec.allOnes_and, ← BitVec.xor_assoc, BitVec.xor_self, BitVec.zero_xor]

theorem assign_spec (hon : on = 0 ∨ on = 1) (hlen : x.length = y.length)
    : assign on x y = some (if on = 1 then y else x) := by
  induction x generalizing y with
  | nil =>
    cases y with
    | nil => simp [assign]
    | cons => contradiction
  | cons a x ih =>
    rcases y with _ | ⟨_, _⟩
    . contradiction
    rw [assign, ih (by simpa using hlen), select_limb hon]
    split <;> rfl

end Assign

section AddSub

variable {x y : List Word}

theorem carryLoop_spec
    (hop : ∀ a b c, c.toNat ≤ 1 → (f a b c).2.toNat ≤ 1 ∧
      ((f a b c).1.toNat : ℤ) = a.toNat + e * (b.toNat + c.toNat - 2 ^ 64 * (f a b c).2.toNat))
    (hlen : x.length = y.length) (hc : c.toNat ≤ 1)
    : ∃ r c', carryLoop f x y c = some (r, c') ∧ r.length = x.length ∧ c'.toNat ≤ 1 ∧
        (value r : ℤ) = value x + e * (value y + c.toNat - (2 ^ 64) ^ x.length * c'.toNat) := by
  induction x generalizing y c with
  | nil =>
    cases y with
    | nil => exact ⟨[], c, rfl, rfl, hc, by simp⟩
    | cons => contradiction
  | cons a x ih =>
    rcases y with _ | ⟨b, _⟩
    . contradiction
    obtain ⟨hcarry, hlimb⟩ := hop a b c hc
    obtain ⟨r, c', hrest, hlen', hc', hvalue⟩ := ih (by simpa using hlen) hcarry
    refine ⟨(f a b c).1 :: r, c', ?_, by simp [hlen'], hc', ?_⟩
    . rw [carryLoop]
      simp [hrest]
    . rw [value_cons, value_cons, value_cons, length_cons]
      push_cast
      linear_combination hlimb + 2 ^ 64 * hvalue

theorem add_spec (hlen : x.length = y.length) : ∃ r c, add x y = some (r, c) ∧ r.length = x.length ∧ c.toNat ≤ 1 ∧
        value r + (2 ^ 64) ^ x.length * c.toNat = value x + value y := by
  obtain ⟨r, c, hrun, hr, hc, hvalue⟩ := carryLoop_spec (f := add64) (e := 1) (c := 0) (by
    intro a b c hc
    have hlimb := add64_spec (x := a) (y := b) hc
    omega) hlen (by decide)
  refine ⟨r, c, hrun, hr, hc, ?_⟩
  zify
  simp at hvalue
  linear_combination hvalue

theorem sub_spec (hlen : x.length = y.length) : ∃ r c, sub x y = some (r, c) ∧ r.length = x.length ∧ c.toNat ≤ 1 ∧
        value r + value y = value x + (2 ^ 64) ^ x.length * c.toNat := by
  obtain ⟨r, c, hrun, hr, hc, hvalue⟩ := carryLoop_spec (f := sub64) (e := -1) (c := 0) (by
    intro a b c hc
    have hlimb := sub64_spec (x := a) (y := b) hc
    omega) hlen (by decide)
  refine ⟨r, c, hrun, hr, hc, ?_⟩
  zify
  simp at hvalue
  linear_combination hvalue

end AddSub

section Mul

variable {x y z t : List Word}

theorem mulAdd_spec (a b y carry : Word) : (add64 (add64 (mul64 b y).2 a 0).1 carry 0).1.toNat +
        2 ^ 64 * (add64 (add64 (mul64 b y).1 0 (add64 (mul64 b y).2 a 0).2).1 0
          (add64 (add64 (mul64 b y).2 a 0).1 carry 0).2).1.toNat =
        b.toNat * y.toNat + a.toNat + carry.toNat := by
  have hmul := mul64_spec b y
  have hle : b.toNat * y.toNat ≤ (2 ^ 64 - 1) * (2 ^ 64 - 1) :=
    Nat.mul_le_mul (Nat.le_sub_one_of_lt b.isLt) (Nat.le_sub_one_of_lt y.isLt)
  generalize (mul64 b y).1 = hi0 at *
  generalize (mul64 b y).2 = lo0 at *
  obtain ⟨_, hc0⟩ := add64_spec (x := lo0) (y := a) (c := 0) (by decide)
  generalize (add64 lo0 a 0).1 = lo1 at *
  generalize (add64 lo0 a 0).2 = c0 at *
  obtain ⟨hhi1, hover1⟩ := add64_spec (x := hi0) (y := 0) hc0
  generalize (add64 hi0 0 c0).1 = hi1 at *
  generalize (add64 hi0 0 c0).2 = o1 at *
  obtain ⟨_, hc1⟩ := add64_spec (x := lo1) (y := carry) (c := 0) (by decide)
  generalize (add64 lo1 carry 0).1 = lo2 at *
  generalize (add64 lo1 carry 0).2 = c1 at *
  obtain ⟨hhi2, hover2⟩ := add64_spec (x := hi1) (y := 0) hc1
  generalize (add64 hi1 0 c1).1 = hi2 at *
  generalize (add64 hi1 0 c1).2 = o2 at *
  have hzero : (0 : Word).toNat = 0 := rfl
  generalize b.toNat * y.toNat = p at *
  omega

theorem addMulVVW_spec (hlen : z.length = x.length) (y : Word)
    : ∃ r c, addMulVVW z x y = some (r, c) ∧ r.length = z.length ∧
        value r + (2 ^ 64) ^ z.length * c.toNat = value z + value x * y.toNat := by
  have hloop : ∀ carry : Word, ∃ r c, addMulVVW.go y z x carry = some (r, c) ∧ r.length = z.length ∧
      value r + (2 ^ 64) ^ z.length * c.toNat = value z + value x * y.toNat + carry.toNat := by
    induction z generalizing x with
    | nil =>
      intro carry
      cases x with
      | nil => exact ⟨[], carry, rfl, rfl, by simp⟩
      | cons => contradiction
    | cons a z ih =>
      intro carry
      rcases x with _ | ⟨b, _⟩
      . contradiction
      have hlimb := mulAdd_spec a b y carry
      obtain ⟨r, c, hrest, hlen', hvalue⟩ := ih (by simpa using hlen)
        (add64 (add64 (mul64 b y).1 0 (add64 (mul64 b y).2 a 0).2).1 0
          (add64 (add64 (mul64 b y).2 a 0).1 carry 0).2).1
      refine ⟨(add64 (add64 (mul64 b y).2 a 0).1 carry 0).1 :: r, c, ?_, by simp [hlen'], ?_⟩
      . rw [addMulVVW.go]
        dsimp only
        rw [hrest]
        rfl
      . rw [value_cons, value_cons, value_cons, length_cons]
        linear_combination hlimb + 2 ^ 64 * hvalue
  obtain ⟨r, c, hrun, hlen', hvalue⟩ := hloop 0
  exact ⟨r, c, hrun, hlen', by simpa using hvalue⟩

theorem value_row (c : Word) (ht : n < t.length) (hr : r.length = n)
    : ((r ++ (t.drop n).set 0 c).headD 0).toNat + 2 ^ 64 * value ((r ++ (t.drop n).set 0 c).tail.take n) =
        value r + (2 ^ 64) ^ n * c.toNat := by
  obtain ⟨b, rest, hdrop⟩ : ∃ b rest, t.drop n = b :: rest := by
    cases hd : t.drop n with
    | nil =>
      rw [drop_eq_nil_iff] at hd
      omega
    | cons b rest => exact ⟨b, rest, rfl⟩
  rw [hdrop, set_cons_zero]
  cases r with
  | nil =>
    subst hr
    simp
  | cons a r =>
    subst hr
    have htake : (r ++ c :: rest).take (r.length + 1) = r ++ [c] := by
      simp [take_append]
    rw [cons_append, headD_cons, tail_cons, length_cons, htake, value_append, value_cons]
    simp
    ring

theorem length_row (c : Word) (ht : n < t.length) (hr : r.length = n)
    : (r ++ (t.drop n).set 0 c).length = t.length := by
  rw [length_append, length_set, length_drop, hr]
  omega

theorem mulRows_spec (hlen : t.length = x.length + y.length) : ∃ r, mulRows x y t = some r ∧ r.length = t.length ∧
        value r = value (t.take x.length) + value x * value y := by
  induction y generalizing t with
  | nil =>
    refine ⟨t, rfl, rfl, ?_⟩
    rw [take_of_length_le (by simp [hlen])]
    simp
  | cons d y ih =>
    rw [length_cons] at hlen
    obtain ⟨z, c, hrow, hz, hvalue⟩ := addMulVVW_spec
      (show (t.take x.length).length = x.length by rw [length_take]; omega) d
    have hzlen : z.length = x.length := by
      rw [hz, length_take]
      omega
    have hlength := length_row c (show x.length < t.length by omega) hzlen
    have hhead := value_row c (show x.length < t.length by omega) hzlen
    obtain ⟨r, hrest, hr, hrvalue⟩ := ih (t := (z ++ (t.drop x.length).set 0 c).tail) (by
      rw [length_tail, hlength]
      omega)
    refine ⟨(z ++ (t.drop x.length).set 0 c).headD 0 :: r, ?_, ?_, ?_⟩
    . rw [mulRows, hrow]
      simp [hrest]
    . rw [length_cons, hr, length_tail, hlength]
      omega
    . rw [length_take, Nat.min_eq_left (by omega)] at hvalue
      rw [value_cons, value_cons, hrvalue]
      linear_combination hhead + hvalue

end Mul

end Bigmod
