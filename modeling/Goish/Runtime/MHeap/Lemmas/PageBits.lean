import Goish.Runtime.MHeap.Impl.PallocBits

open Word Loop FreeRun BitVec

namespace MHeap

theorem getLsbD_maskLowBits (n i : Nat) : (maskLowBits n).getLsbD i = decide (i < n ∧ i < 64) := by
  unfold maskLowBits
  split
  . simp only [getLsbD_allOnes, decide_eq_decide]
    omega
  next hn =>
  have htoNat : ((1#64 <<< n) - 1#64).toNat = 2 ^ n - 1 := by
    have hlt : 2 ^ n < 2 ^ 64 := Nat.pow_lt_pow_right (by omega) (by omega)
    have hpos : 0 < 2 ^ n := Nat.two_pow_pos n
    rw [toNat_sub, toNat_shiftLeft]
    simp only [toNat_ofNat, Nat.shiftLeft_eq]
    omega
  rw [getLsbD, htoNat, Nat.testBit_two_pow_sub_one, decide_eq_decide]
  omega

namespace PageBits

theorem word_setWord (b : PageBits) (v : BitVec 64) (hk : k < 8)
    : (b.setWord k v).word j = if k = j then v else b.word j := by
  unfold word setWord
  simp only [Vector.getD, Vector.setIfInBounds, Array.getD_eq_getD_getElem?,
    Array.getElem?_setIfInBounds, Vector.size_toArray, show k < pageBitsWords by exact hk, ↓reduceIte]
  split <;> simp

theorem word_zero (k : Nat) : zero.word k = 0#64 := by
  unfold word zero
  simp only [Vector.getD, Array.getD_eq_getD_getElem?, Vector.toArray_replicate,
    Array.getElem?_replicate]
  split <;> rfl

theorem get_zero (i : Nat) : zero.get i = false := by
  unfold get
  rw [word_zero]
  simp

theorem word_forRange_setWord (b : PageBits) (v : BitVec 64) (hle : lo ≤ hi) (hhi : hi ≤ 8)
    : (forRange lo hi b fun k b => b.setWord k v).word j =
      if lo ≤ j ∧ j < hi then v else b.word j := by
  apply forRange_fill PageBits.word hle
  intro i s _ hi
  simp only [word_setWord _ _ (Nat.lt_of_lt_of_le hi hhi), @eq_comm _ i]

section Masks

variable (ht : t < 64)
include ht

theorem getLsbD_mask_single (i : Nat) : (1#64 <<< (i % 64)).getLsbD t = decide (i = 64 * (i / 64) + t) := by
  rw [Bool.eq_iff_iff, getLsbD_shiftLeft]
  simp [ht]
  omega

theorem getLsbD_mask_inner (i n : Nat) : (maskLowBits n <<< (i % 64)).getLsbD t =
      decide (i ≤ 64 * (i / 64) + t ∧ 64 * (i / 64) + t < i + n) := by
  rw [Bool.eq_iff_iff, getLsbD_shiftLeft, getLsbD_maskLowBits]
  simp [ht]
  omega

theorem getLsbD_mask_first (i : Nat) : (allOnes 64 <<< (i % 64)).getLsbD t = decide (i ≤ 64 * (i / 64) + t) := by
  rw [Bool.eq_iff_iff, getLsbD_shiftLeft, getLsbD_allOnes]
  simp [ht]
  omega

theorem getLsbD_mask_last (j : Nat) : (maskLowBits (j % 64 + 1)).getLsbD t = decide (64 * (j / 64) + t ≤ j) := by
  rw [getLsbD_maskLowBits, decide_eq_decide]
  omega

end Masks

def maskRange (op : BitVec 64 → BitVec 64 → BitVec 64) (fill : BitVec 64) (b : PageBits) (i n : Nat) : PageBits :=
  if n = 1 then
    b.setWord (i / 64) (op (b.word (i / 64)) (1#64 <<< (i % 64)))
  else if i / 64 = (i + n - 1) / 64 then
    b.setWord (i / 64) (op (b.word (i / 64)) (maskLowBits n <<< (i % 64)))
  else
    let b := b.setWord (i / 64) (op (b.word (i / 64)) (allOnes 64 <<< (i % 64)))
    let b := forRange (i / 64 + 1) ((i + n - 1) / 64) b fun k b => b.setWord k fill
    b.setWord ((i + n - 1) / 64) (op (b.word ((i + n - 1) / 64)) (maskLowBits ((i + n - 1) % 64 + 1)))

theorem getLsbD_word_maskRange (op : BitVec 64 → BitVec 64 → BitVec 64) (fill : BitVec 64) (f : Bool → Bool → Bool)
    (hop : ∀ w m, (op w m).getLsbD t = f (w.getLsbD t) (m.getLsbD t)) (hfill : ∀ x, fill.getLsbD t = f x true)
    (hf : ∀ x, f x false = x) (b : PageBits) (hn : 1 ≤ n) (hle : i + n ≤ 512) (ht : t < 64)
    : ((maskRange op fill b i n).word k).getLsbD t =
      f ((b.word k).getLsbD t) (decide (i ≤ 64 * k + t ∧ 64 * k + t < i + n)) := by
  have hout : ¬ (i ≤ 64 * k + t ∧ 64 * k + t < i + n) →
      (b.word k).getLsbD t = f ((b.word k).getLsbD t) (decide (i ≤ 64 * k + t ∧ 64 * k + t < i + n)) := by
    intro h
    rw [decide_eq_false h, hf]
  unfold maskRange
  split
  . rw [word_setWord _ _ (by omega)]
    split
    . next hw =>
      subst hw
      rw [hop, getLsbD_mask_single ht]
      congr 1
      rw [decide_eq_decide]
      omega
    . exact hout (by omega)
  split
  . rw [word_setWord _ _ (by omega)]
    split
    . next heq =>
      subst heq
      rw [hop, getLsbD_mask_inner ht]
    . exact hout (by omega)
  next hw =>
  have h1 : i / 64 + 1 ≤ (i + n - 1) / 64 := by omega
  have h2 : (i + n - 1) / 64 < 8 := by omega
  simp only [word_setWord _ _ h2, word_forRange_setWord _ _ h1 h2.le,
    word_setWord _ _ (show i / 64 < 8 by omega)]
  split
  . next heq =>
    subst heq
    have hne : ¬ (i / 64 + 1 ≤ (i + n - 1) / 64 ∧ (i + n - 1) / 64 < (i + n - 1) / 64) := by
      omega
    rw [if_neg hne, hop, getLsbD_mask_last ht]
    congr 1
    rw [decide_eq_decide]
    omega
  split
  . have : i ≤ 64 * k + t ∧ 64 * k + t < i + n := by omega
    rw [decide_eq_true this]
    exact hfill _
  split
  . next heq =>
    subst heq
    rw [hop, getLsbD_mask_first ht]
    congr 1
    rw [decide_eq_decide]
    omega
  . exact hout (by omega)

section

variable (b : PageBits) (hn : 1 ≤ n) (hle : i + n ≤ 512)
include b hn hle

theorem getLsbD_word_setRange (ht : t < 64) : ((b.setRange i n).word k).getLsbD t =
      ((b.word k).getLsbD t || decide (i ≤ 64 * k + t ∧ 64 * k + t < i + n)) :=
  getLsbD_word_maskRange (· ||| ·) (allOnes 64) or (by simp) (by simp [-reduceAllOnes, ht])
    Bool.or_false b hn hle ht

theorem getLsbD_word_clearRange (ht : t < 64) : ((b.clearRange i n).word k).getLsbD t =
      ((b.word k).getLsbD t && !decide (i ≤ 64 * k + t ∧ 64 * k + t < i + n)) :=
  getLsbD_word_maskRange (fun w m => w &&& ~~~m) 0#64 (fun x y => x && !y) (by simp [ht]) (by simp) (by simp) b hn hle ht

theorem get_setRange : (b.setRange i n).get j = (b.get j || decide (i ≤ j ∧ j < i + n)) := by
  unfold get
  rw [getLsbD_word_setRange b hn hle (by omega)]
  rw [show 64 * (j / 64) + j % 64 = j by omega]

theorem get_clearRange : (b.clearRange i n).get j = (b.get j && !decide (i ≤ j ∧ j < i + n)) := by
  unfold get
  rw [getLsbD_word_clearRange b hn hle (by omega)]
  rw [show 64 * (j / 64) + j % 64 = j by omega]

end

end PageBits

end MHeap
