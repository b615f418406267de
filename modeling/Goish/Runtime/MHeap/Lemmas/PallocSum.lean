import Mathlib.Data.Nat.Bitwise
import Goish.Runtime.MHeap.Impl.PallocSum

open FreeRun

namespace MHeap

structure Packable (s : Summary) : Prop where
  start_le : s.start ≤ s.most
  last_le : s.last ≤ s.most
  most_le : s.most ≤ maxPackedValue
  full : s.most = maxPackedValue → s.start = maxPackedValue ∧ s.last = maxPackedValue

theorem Packable.of_isSummary (h : IsSummary free a n s) (hn : n ≤ maxPackedValue) : Packable s where
  start_le := h.start_le_most
  last_le := h.last_le_most
  most_le := le_trans h.most_le hn
  full := by
    intro hmost
    have hle := h.most_le
    have heq := h.eq_of_run (h.run_of_most_eq (by omega))
    rw [heq] at hmost ⊢
    exact ⟨hmost, hmost⟩

namespace PallocSum

theorem toNat_and_fieldMask (x : BitVec 64) : (x &&& fieldMask).toNat = x.toNat % 2 ^ 21 := by
  rw [BitVec.toNat_and]
  exact Nat.and_two_pow_sub_one_eq_mod x.toNat 21

theorem toNat_pack_raw (hs : s < 2 ^ 21) (hm : m < 2 ^ 21) (he : e < 2 ^ 21)
    : (pack s m e).raw.toNat = 2 ^ 42 * e + (2 ^ 21 * m + s) := by
  have hne : m ≠ maxPackedValue := by
    rw [maxPackedValue_eq]
    omega
  simp only [pack, hne, ↓reduceIte, BitVec.toNat_or, BitVec.toNat_shiftLeft, toNat_and_fieldMask,
    BitVec.toNat_ofNat, show logMaxPackedValue = 21 by rfl, Nat.shiftLeft_eq]
  rw [show s % 2 ^ 64 % 2 ^ 21 = s by omega]
  rw [show m % 2 ^ 64 % 2 ^ 21 * 2 ^ 21 % 2 ^ 64 = 2 ^ 21 * m by omega]
  rw [show e % 2 ^ 64 % 2 ^ 21 * 2 ^ (2 * 21) % 2 ^ 64 = 2 ^ 42 * e by omega]
  rw [Nat.or_comm s, ← Nat.two_pow_add_eq_or_of_lt hs]
  rw [Nat.or_comm, ← Nat.two_pow_add_eq_or_of_lt (by omega)]

theorem and_fullBit_eq_zero (h : x.toNat < 2 ^ 63) : x &&& fullBit = 0#64 := by
  apply BitVec.eq_of_toNat_eq
  rw [BitVec.toNat_and, show fullBit.toNat = 2 ^ 63 by rfl, Nat.and_two_pow]
  rw [Nat.testBit_lt_two_pow h]
  simp

theorem unpack_pack (hs : Packable s) : (pack s.start s.most s.last).unpack = s := by
  have h1 := hs.start_le
  have h2 := hs.last_le
  have h3 := hs.most_le
  cases Nat.decEq s.most maxPackedValue with
  | isTrue heq =>
    have hraw : (pack s.start s.most s.last).raw = fullBit := by
      simp [pack, heq]
    simp only [unpack, hraw]
    rw [if_pos (by decide)]
    have hfull := hs.full heq
    apply Summary.ext
    . exact hfull.1.symm
    . exact heq.symm
    . exact hfull.2.symm
  | isFalse hne =>
    rw [maxPackedValue_eq] at h3 hne
    have hraw := toNat_pack_raw (s := s.start) (m := s.most) (e := s.last) (by omega) (by omega)
      (by omega)
    simp only [unpack, and_fullBit_eq_zero (x := (pack s.start s.most s.last).raw) (by omega),
      ne_eq, not_true_eq_false, ↓reduceIte, toNat_and_fieldMask, BitVec.toNat_ushiftRight,
      Nat.shiftRight_eq_div_pow, hraw, show logMaxPackedValue = 21 by rfl]
    apply Summary.ext
    all_goals
      dsimp only
      omega

theorem start_eq_unpack (sum : PallocSum) : sum.start = sum.unpack.start := by
  unfold start unpack
  split <;> rfl

theorem max_eq_unpack (sum : PallocSum) : sum.max = sum.unpack.most := by
  unfold max unpack
  split <;> rfl

theorem end_eq_unpack (sum : PallocSum) : sum.end = sum.unpack.last := by
  unfold «end» unpack
  split <;> rfl

theorem pack_zero : pack 0 0 0 = empty := by
  decide

theorem raw_pack_eq_zero_iff (hs : Packable s) : (pack s.start s.most s.last).raw = 0#64 ↔ s.most = 0 := by
  constructor
  . intro h
    have heq := unpack_pack hs
    have hempty : pack s.start s.most s.last = empty := by
      cases hp : pack s.start s.most s.last with
      | mk =>
        rw [hp] at h
        dsimp at h
        rw [h]
        rfl
    rw [hempty] at heq
    rw [← heq]
    decide
  . intro h
    have h1 := hs.start_le
    have h2 := hs.last_le
    rw [h, show s.start = 0 by omega, show s.last = 0 by omega, pack_zero]
    rfl

end PallocSum

namespace mergeSummaries

theorem step_eq_append (run si : Summary) (n block : Nat) : (⟨if run.start = n then run.start + si.start else run.start,
        if run.last + si.start > if run.most ≥ si.most then run.most else si.most
          then run.last + si.start
          else if run.most ≥ si.most then run.most else si.most,
        if si.last = block then run.last + block else si.last⟩ : Summary) =
      run.append n si block := by
  unfold Summary.append
  apply Summary.ext
  . rfl
  . dsimp only
    split <;> split <;> omega
  . rfl

theorem go_isSummary (log : Nat) (sums : List PallocSum) : ∀ (i : Nat) (run : Summary),
        IsSummary free a (i * 2 ^ log) run
          →
        (∀ (j : Nat) (hj : j < sums.length),
          IsSummary free (a + (i + j) * 2 ^ log) (2 ^ log) (sums[j].unpack))
          →
        IsSummary free a ((i + sums.length) * 2 ^ log) (go log i run sums) := by
  induction sums with
  | nil =>
    intro _ _ hrun _
    simpa [go] using hrun
  | cons _ sums ih =>
    intro i _ hrun hsums
    unfold go
    dsimp only
    rw [step_eq_append, Nat.one_shiftLeft]
    have hsum := hsums 0 (by simp)
    have hnext := hrun.append hsum
    rw [← Nat.succ_mul] at hnext
    have := ih (i + 1) _ hnext (by
      intro j hj
      have := hsums (j + 1) (by simpa using hj)
      simpa [add_assoc, add_comm 1 j] using this)
    rw [List.length_cons, show i + (sums.length + 1) = i + 1 + sums.length by omega]
    exact this

end mergeSummaries

theorem mergeSummaries_eq_pack (log : Nat) (sums : List PallocSum)
    (hlen : 0 < sums.length)
    (hsums : ∀ (j : Nat) (hj : j < sums.length),
      IsSummary free (a + j * 2 ^ log) (2 ^ log) (sums[j].unpack)) : ∃ (s : Summary),
        IsSummary free a (sums.length * 2 ^ log) s ∧
        mergeSummaries sums log = PallocSum.pack s.start s.most s.last := by
  rcases sums with _ | ⟨sum, sums⟩
  . simp at hlen
  refine ⟨mergeSummaries.go log 1 sum.unpack sums, ?_, rfl⟩
  rw [List.length_cons, add_comm]
  apply mergeSummaries.go_isSummary
  . have := hsums 0 (by simp)
    simpa using this
  . intro j hj
    have := hsums (j + 1) (by simpa using hj)
    simpa [add_comm 1 j] using this

end MHeap
