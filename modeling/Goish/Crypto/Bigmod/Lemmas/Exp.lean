import Goish.Crypto.Bigmod.Lemmas.Montgomery

open WordList Option BitVec

namespace Bigmod

open Bits

namespace Modulus

variable {m : Modulus} {b : ZMod (value m.nat)} {x out tmp : List Word}

structure Stands (m : Modulus) (b : ZMod (value m.nat)) (x : List Word) : Prop where
  reduced : m.Reduced x
  repr : m.repr x = b

theorem Stands.mul (hm : m.Montgomery) (ha : m.Stands a x) (hb : m.Stands b y)
    : ∃ r, m.montgomeryMul x y = some r ∧ m.Stands (a * b) r := by
  obtain ⟨r, hmul, hr, hrepr⟩ := montgomeryMul_spec hm ha.reduced hb.reduced
  exact ⟨r, hmul, hr, by rw [hrepr, ha.repr, hb.repr]⟩

theorem Stands.square (hm : m.Montgomery) (hx : m.Stands b x) : ∃ r, m.square x = some r ∧ m.Stands (b ^ 2) r := by
  rw [sq]
  exact hx.mul hm hx

def IsTable (m : Modulus) (b : ZMod (value m.nat)) : Nat → List (List Word) → Prop
  | _, [] => True
  | j, entry :: table => m.Stands (b ^ j) entry ∧ IsTable m b (j + 1) table

theorem powers_spec (hm : m.Montgomery) (hbase : m.Stands b base) (k : Nat) (hprev : m.Stands (b ^ j) prev)
    : ∃ table, m.powers base k prev = some table ∧ table.length = k ∧ m.IsTable b (j + 1) table := by
  induction k generalizing prev j with
  | zero => exact ⟨[], rfl, rfl, trivial⟩
  | succ k ih =>
    obtain ⟨next, hmul, hnext⟩ := hprev.mul hm hbase
    rw [← pow_succ] at hnext
    obtain ⟨table, hpowers, hlen, htable⟩ := ih hnext
    refine ⟨next :: table, ?_, by simp [hlen], hnext, htable⟩
    rw [powers, hmul]
    simp [hpowers]

theorem selectEntry_spec (htable : m.IsTable b want table) (hwant : want + table.length < 2 ^ 64)
    (htmp : m.Reduced tmp) : ∃ r, selectEntry k want table tmp = some r ∧ m.Reduced r ∧ (k.toNat < want → r = tmp) ∧
        (want ≤ k.toNat → k.toNat < want + table.length → m.Stands (b ^ k.toNat) r) := by
  induction table generalizing want tmp with
  | nil =>
    refine ⟨tmp, rfl, htmp, fun _ => rfl, ?_⟩
    intro _ hlt
    simp at hlt
    omega
  | cons entry _ ih =>
    obtain ⟨hentry, hrest⟩ := htable
    rw [List.length_cons] at hwant
    have heq : k = .ofNat 64 want ↔ k.toNat = want := by
      rw [← toNat_inj, toNat_ofNat, Nat.mod_eq_of_lt (by omega)]
    have hassign : assign (ctEq k (.ofNat 64 want)) tmp entry = some (if k.toNat = want then entry else tmp) := by
      rw [ctEq_eq, assign_spec (by split <;> simp) (htmp.length.trans hentry.reduced.length.symm)]
      simp only [heq]
      split <;> simp
    have hnext : m.Reduced (if k.toNat = want then entry else tmp) := by
      split
      . exact hentry.reduced
      . exact htmp
    obtain ⟨r, hselect, hr, hbelow, habove⟩ := ih hrest (by omega) hnext
    refine ⟨r, ?_, hr, ?_, ?_⟩
    . rwa [selectEntry, hassign]
    . intro _
      rw [hbelow (by omega), if_neg (by omega)]
    intro hle hlt
    rw [List.length_cons] at hlt
    rcases eq_or_lt_of_le hle with hsame | hmore
    . rwa [hbelow (by omega), if_pos hsame.symm, ← hsame]
    . exact habove hmore (by omega)

section Windows

variable {table : List (List Word)} {a : ZMod (value m.nat)}

theorem expWindow_spec (hm : m.Montgomery) (htable : m.IsTable b 1 table) (hlen : table.length = 15)
    (hk : k.toNat < 16) (hout : m.Stands a out) (htmp : m.Reduced tmp)
    : ∃ out' tmp', m.expWindow table k out tmp = some (out', tmp') ∧ m.Stands (a ^ 16 * b ^ k.toNat) out' ∧
        m.Reduced tmp' := by
  obtain ⟨_, hs1, h1⟩ := hout.square hm
  obtain ⟨_, hs2, h2⟩ := h1.square hm
  obtain ⟨_, hs3, h3⟩ := h2.square hm
  obtain ⟨s4, hs4, h4⟩ := h3.square hm
  rw [← pow_mul, ← pow_mul, ← pow_mul] at h4
  obtain ⟨_, hselect, hentry, _, habove⟩ := selectEntry_spec (k := k) htable (by omega) htmp
  obtain ⟨prod, hmul, hprod, hrepr⟩ := montgomeryMul_spec hm h4.reduced hentry
  have hzero : k = 0 ↔ k.toNat = 0 := by
    rw [← toNat_inj]
    rfl
  have hassign : assign (not (ctEq k 0)) s4 prod = some (if k.toNat = 0 then s4 else prod) := by
    have hnot : not (ctEq k 0) = if k.toNat = 0 then 0 else 1 := by
      rw [ctEq_eq]
      simp only [hzero]
      split <;> decide
    rw [hnot, assign_spec (by split <;> simp) (h4.reduced.length.trans hprod.length.symm)]
    split <;> simp
  refine ⟨if k.toNat = 0 then s4 else prod, prod, ?_, ?_, hprod⟩
  . unfold expWindow
    simp only [hs1, hs2, hs3, hs4, hselect, hmul, hassign, bind_eq_bind, bind_some]
    rfl
  split
  . next hk0 =>
    rwa [hk0, pow_zero, mul_one]
  . next hk0 =>
    refine ⟨hprod, ?_⟩
    rw [hrepr, h4.repr, (habove (by omega) (by omega)).repr]

theorem toNat_high (x : BitVec 8) : ((x >>> 4 &&& 0b1111).setWidth 64).toNat = x.toNat / 16 := by
  rw [toNat_setWidth, toNat_and, toNat_ushiftRight, Nat.shiftRight_eq_div_pow,
    show (0b1111 : BitVec 8).toNat = 2 ^ 4 - 1 from rfl, Nat.and_two_pow_sub_one_eq_mod]
  omega

theorem toNat_low (x : BitVec 8) : ((x &&& 0b1111).setWidth 64).toNat = x.toNat % 16 := by
  rw [toNat_setWidth, toNat_and, show (0b1111 : BitVec 8).toNat = 2 ^ 4 - 1 from rfl,
    Nat.and_two_pow_sub_one_eq_mod]
  omega

theorem expLoop_spec (hm : m.Montgomery) (htable : m.IsTable b 1 table) (hlen : table.length = 15)
    (e : List (BitVec 8)) (hout : m.Stands (b ^ n) out) (htmp : m.Reduced tmp)
    : ∃ r, m.expLoop table e out tmp = some r ∧ m.Stands (b ^ (n * (2 ^ 8) ^ e.length + value e.reverse)) r := by
  induction e generalizing n out tmp with
  | nil =>
    refine ⟨out, rfl, ?_⟩
    simpa using hout
  | cons x e ih =>
    obtain ⟨_, _, hwin1, ho1, ht1⟩ := expWindow_spec hm htable hlen
      (show ((x >>> 4 &&& 0b1111).setWidth 64).toNat < 16 by rw [toNat_high]; omega) hout htmp
    obtain ⟨_, _, hwin2, ho2, ht2⟩ := expWindow_spec hm htable hlen
      (show ((x &&& 0b1111).setWidth 64).toNat < 16 by rw [toNat_low]; omega) ho1 ht1
    rw [toNat_high, toNat_low] at ho2
    have hexp : ((b ^ n) ^ 16 * b ^ (x.toNat / 16)) ^ 16 * b ^ (x.toNat % 16) = b ^ (n * 2 ^ 8 + x.toNat) := by
      have hdigits : n * (16 * 16) + x.toNat / 16 * 16 + x.toNat % 16 = n * 2 ^ 8 + x.toNat := by omega
      rw [mul_pow, ← pow_mul, ← pow_mul, ← pow_mul, ← pow_add, ← pow_add, hdigits]
    rw [hexp] at ho2
    obtain ⟨r, hloop, hr⟩ := ih ho2 ht2
    refine ⟨r, ?_, ?_⟩
    . rw [expLoop, hwin1]
      simp only [bind_eq_bind, bind_some, hwin2]
      exact hloop
    . rw [value_reverse_cons, List.length_cons]
      rw [show n * (2 ^ 8) ^ (e.length + 1) + ((2 ^ 8) ^ e.length * x.toNat + value e.reverse) =
        (n * 2 ^ 8 + x.toNat) * (2 ^ 8) ^ e.length + value e.reverse by ring]
      exact hr

end Windows

theorem reduced_reset (hm : m.Valid) : m.Reduced (reset m.size) := by
  constructor
  . exact length_reset _
  . rw [value_reset]
    exact Nat.zero_lt_of_lt hm.one_lt

theorem exp_spec (hm : m.Ready) (hodd : m.odd = true) (hx : m.Reduced x) (e : List (BitVec 8))
    : ∃ r, m.exp x e = some r ∧ m.Reduced r ∧ value r = value x ^ value e.reverse % value m.nat := by
  obtain ⟨base, hrep, hbase, hbrepr⟩ := montgomeryRepresentation_spec hm hx
  have hstands : m.Stands (value x : ZMod (value m.nat)) base := ⟨hbase, hbrepr⟩
  obtain ⟨table, hpowers, hlen, htable⟩ := powers_spec hm.toMontgomery hstands 14 (j := 1) (by rw [pow_one]; exact hstands)
  obtain ⟨_, ho, hone, hvalue⟩ := one_spec hm.toValid
  obtain ⟨out, hout, houtr, houtrepr⟩ := montgomeryRepresentation_spec hm hone
  have htable' : m.IsTable (value x : ZMod (value m.nat)) 1 (base :: table) :=
    ⟨by rw [pow_one]; exact hstands, htable⟩
  have hstart : m.Stands ((value x : ZMod (value m.nat)) ^ 0) out :=
    ⟨houtr, by rw [houtrepr, hvalue, pow_zero, Nat.cast_one]⟩
  obtain ⟨_, hloop, hp⟩ := expLoop_spec hm.toMontgomery htable' (by simp [hlen]) e hstart (reduced_reset hm.toValid)
  obtain ⟨r, hred, hr, hrvalue⟩ := montgomeryReduction_spec hm.toMontgomery hp.reduced
  refine ⟨r, ?_, hr, ?_⟩
  . unfold exp
    rw [if_pos hodd]
    simp only [hrep, hpowers, ho, hout, hloop, bind_eq_bind, bind_some]
    exact hred
  . apply Montgomery.eq_mod_of_cast hr.lt
    rw [hrvalue, hp.repr, Nat.zero_mul, Nat.zero_add, Nat.cast_pow]

theorem expShortLoop_spec (hm : m.Montgomery) (hxR : m.Stands b xR) (i : Nat)
    (hout : m.Stands (b ^ (e.toNat / 2 ^ i)) out)
    : ∃ r, m.expShortLoop xR e i out = some r ∧ m.Stands (b ^ e.toNat) r := by
  induction i generalizing out with
  | zero =>
    refine ⟨out, rfl, ?_⟩
    simpa using hout
  | succ i ih =>
    obtain ⟨_, hsquare, hs⟩ := hout.square hm
    rw [← pow_mul] at hs
    have hbit := toNat_bit e i
    have hdiv : e.toNat / 2 ^ i = e.toNat / 2 ^ (i + 1) * 2 + e.toNat / 2 ^ i % 2 := by
      rw [pow_succ, ← Nat.div_div_eq_div_mul]
      omega
    rw [expShortLoop, hsquare]
    simp only [bind_eq_bind, bind_some]
    split
    . next hne =>
      have hone : e.toNat / 2 ^ i % 2 = 1 := by
        have hpos : (e >>> i &&& 1).toNat ≠ 0 := by
          intro hzero
          exact hne (eq_of_toNat_eq hzero)
        omega
      obtain ⟨_, hmul, ht⟩ := hs.mul hm hxR
      rw [← pow_succ] at ht
      rw [hmul]
      apply ih
      rwa [hdiv, hone]
    . next heq =>
      have hzero : e.toNat / 2 ^ i % 2 = 0 := by
        rw [Decidable.not_not] at heq
        rw [← hbit, heq]
        rfl
      apply ih
      rwa [hdiv, hzero, add_zero]

theorem expShortVarTime_spec (hm : m.Ready) (hodd : m.odd = true) (hx : m.Reduced x) (he : 1 ≤ e.toNat)
    : ∃ r, m.expShortVarTime x e = some r ∧ m.Reduced r ∧ value r = value x ^ e.toNat % value m.nat := by
  have hne : e ≠ 0 := by
    rintro rfl
    contradiction
  obtain ⟨_, _, _, hupper⟩ := len64_spec hne
  obtain ⟨xR, hrep, hbase, hbrepr⟩ := montgomeryRepresentation_spec hm hx
  have hfirst : e.toNat / 2 ^ (len64 e - 1) = 1 := by
    apply Nat.div_eq_of_lt_le
    . omega
    rw [show 2 ^ len64 e = 2 ^ (len64 e - 1) * 2 by rw [← pow_succ]; congr 1; omega] at hupper
    omega
  have hstands : m.Stands (value x : ZMod (value m.nat)) xR := ⟨hbase, hbrepr⟩
  have hstart : m.Stands ((value x : ZMod (value m.nat)) ^ (e.toNat / 2 ^ (len64 e - 1))) xR := by
    rwa [hfirst, pow_one]
  obtain ⟨_, hloop, hp⟩ := expShortLoop_spec hm.toMontgomery hstands (len64 e - 1) hstart
  obtain ⟨r, hred, hr, hrvalue⟩ := montgomeryReduction_spec hm.toMontgomery hp.reduced
  refine ⟨r, ?_, hr, ?_⟩
  . unfold expShortVarTime
    rw [if_pos hodd]
    simp only [hrep, hloop, bind_eq_bind, bind_some]
    exact hred
  . apply Montgomery.eq_mod_of_cast hr.lt
    rw [hrvalue, hp.repr, Nat.cast_pow]

end Modulus

end Bigmod
