import Goish.Crypto.Bigmod.Lemmas.NewModulus

open WordList

namespace Bigmod

open Modulus

inductive Source where
  | bytes (b : List (BitVec 8))
  | product (a b : List (BitVec 8))

namespace Source

def value : Source → Nat
  | bytes b => WordList.value b.reverse
  | product a b => WordList.value a.reverse * WordList.value b.reverse

def modulus : Source → Option (Except String Modulus)
  | bytes b => Modulus.newModulus b
  | product a b => Modulus.newModulusProduct a b

end Source

theorem modulus_spec (c : Source) (hc : 1 < c.value)
    : ∃ m, c.modulus = some (.ok m) ∧ value m.nat = c.value ∧ m.Valid ∧ (m.odd = true ↔ c.value % 2 = 1) ∧
        (m.odd = true → m.Ready) := by
  cases c with
  | bytes b =>
    obtain ⟨_, hset, hvalue, _, hy⟩ := resetToBytes_spec b
    obtain ⟨m, hnew, hnat, hvalid, hodd, hready⟩ := newModulus_spec hy (hvalue ▸ hc)
    rw [hvalue] at hodd
    refine ⟨m, ?_, by rw [hnat, hvalue]; rfl, hvalid, hodd, hready⟩
    rwa [Source.modulus, Modulus.newModulus, hset]
  | product a b =>
    obtain ⟨x, hx, hxvalue, _⟩ := resetToBytes_spec a
    obtain ⟨y, hy, hyvalue, _⟩ := resetToBytes_spec b
    obtain ⟨r, hrows, _, hvalue⟩ := mulRows_spec (x := x) (y := y) (length_reset (x.length + y.length))
    have htrim : value (trim r) = (Source.product a b).value := by
      unfold reset at hvalue
      rw [List.take_replicate, value_replicate_zero, zero_add, hxvalue, hyvalue] at hvalue
      exact (value_rdropWhile r).trans hvalue
    obtain ⟨m, hnew, hnat, hvalid, hodd, hready⟩ := newModulus_spec (n := trim r) rfl (htrim ▸ hc)
    rw [htrim] at hodd
    refine ⟨m, ?_, by rw [hnat, htrim], hvalid, hodd, hready⟩
    rw [Source.modulus, Modulus.newModulusProduct]
    simp only [hx, hy, hrows, Option.bind_eq_bind, Option.bind_some]
    exact hnew

theorem bigmod_exact (c : Source) (hc : 1 < c.value) : ∃ m, c.modulus = some (.ok m) ∧ value m.nat = c.value ∧
        (∀ x y, m.Reduced x → m.Reduced y →
          (∃ r, m.add x y = some r ∧ m.Reduced r ∧ value r = (value x + value y) % c.value) ∧
          (∃ r, m.sub x y = some r ∧ m.Reduced r ∧ (value r : ℤ) = ((value x : ℤ) - value y) % c.value) ∧
          ∃ r, m.mul x y = some r ∧ m.Reduced r ∧ value r = value x * value y % c.value) ∧
        (∀ x, ∃ r, m.mod x = some r ∧ m.Reduced r ∧ value r = value x % c.value) ∧
        (c.value % 2 = 1 → ∀ x, m.Reduced x →
          (∀ e, ∃ r, m.exp x e = some r ∧ m.Reduced r ∧ value r = value x ^ value e.reverse % c.value) ∧
          ∀ e : Word, 1 ≤ e.toNat →
            ∃ r, m.expShortVarTime x e = some r ∧ m.Reduced r ∧ value r = value x ^ e.toNat % c.value) := by
  obtain ⟨m, hnew, hvalue, hvalid, hodd, hready⟩ := modulus_spec c hc
  refine ⟨m, hnew, hvalue, ?_, ?_, ?_⟩
  . intro x y hx hy
    rw [← hvalue]
    exact ⟨Modulus.add_spec hx hy, Modulus.sub_spec hx hy, mul_spec hvalid hready hx hy⟩
  . intro x
    rw [← hvalue]
    exact mod_spec hvalid x
  . intro ho x hx
    have hm := hready (hodd.mpr ho)
    rw [← hvalue]
    exact ⟨exp_spec hm (hodd.mpr ho) hx, fun e he => expShortVarTime_spec hm (hodd.mpr ho) hx he⟩

theorem bigmod_exact_fifteen : ∃ m, Source.modulus (.product [3] [5]) = some (.ok m) ∧
        ∃ x r, m.mod [2] = some x ∧ m.expShortVarTime x 5 = some r ∧ value r = 2 := by
  obtain ⟨m, hnew, _, _, hmod, hexp⟩ := bigmod_exact (.product [3] [5]) (by decide)
  obtain ⟨x, hx, hxr, hxvalue⟩ := hmod [2]
  obtain ⟨r, hr, _, hrvalue⟩ := (hexp (by decide) x hxr).2 5 (by decide)
  refine ⟨m, hnew, x, r, hx, hr, ?_⟩
  rw [hrvalue, hxvalue]
  decide

end Bigmod
