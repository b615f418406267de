import Goish.Data.Word

/-! Bitmaps of `n` words of 64 bits. -/

open Word

structure Bitmap (n : Nat) where
  words : Vector (BitVec 64) n
  deriving DecidableEq, Repr

open List

namespace Bitmap

variable {n : Nat}

def zero (n : Nat) : Bitmap n :=
  ⟨Vector.replicate n 0#64⟩

def word (b : Bitmap n) (k : Nat) : BitVec 64 :=
  b.words.getD k 0#64

def setWord (b : Bitmap n) (k : Nat) (v : BitVec 64) : Bitmap n :=
  ⟨b.words.setIfInBounds k v⟩

def get (b : Bitmap n) (j : Nat) : Bool :=
  (b.word (j / 64)).getLsbD (j % 64)

def popcount (b : Bitmap n) : Nat :=
  ((List.range n).map fun k => countOnes (b.word k)).sum

theorem word_zero : (zero n).word k = 0#64 := by
  unfold word zero
  simp only [Vector.getD, Array.getD_eq_getD_getElem?, Vector.toArray_replicate,
    Array.getElem?_replicate]
  split <;> rfl

theorem get_zero : (zero n).get j = false := by
  unfold get
  rw [word_zero]
  simp

variable {b : Bitmap n}

theorem word_setWord (hk : k < n) : (b.setWord k v).word j = if k = j then v else b.word j := by
  unfold word setWord
  simp only [Vector.getD, Vector.setIfInBounds, Array.getD_eq_getD_getElem?,
    Array.getElem?_setIfInBounds, Vector.size_toArray, hk, ↓reduceIte]
  split <;> simp

theorem get_setWord (hk : k < n) : (b.setWord k v).get j = if k = j / 64 then v.getLsbD (j % 64) else b.get j := by
  unfold get
  rw [word_setWord hk]
  split <;> rfl

theorem get_word (ht : t < 64) : b.get (64 * k + t) = (b.word k).getLsbD t := by
  unfold get
  rw [show (64 * k + t) / 64 = k by omega, show (64 * k + t) % 64 = t by omega]

theorem lt_of_get (h : b.get j = true) : j < 64 * n := by
  rcases lt_or_ge j (64 * n) with hlt | _
  . exact hlt
  unfold get word at h
  have hsize : b.words.toArray.size ≤ j / 64 := by
    rw [Vector.size_toArray]
    omega
  rw [Vector.getD, Array.getD_eq_getD_getElem?, Array.getElem?_eq_none hsize] at h
  simp at h

theorem popcount_setWord (hk : k < n) : (b.setWord k v).popcount + countOnes (b.word k) = b.popcount + countOnes v := by
  have hsum : ∀ (m : Nat), ((List.range m).map fun i => countOnes ((b.setWord k v).word i)).sum
        + (if k < m then countOnes (b.word k) else 0)
      = ((List.range m).map fun i => countOnes (b.word i)).sum
        + (if k < m then countOnes v else 0) := by
    intro m
    induction m with
    | zero => simp
    | succ m ih =>
      rw [range_succ, map_append, map_append, sum_append, sum_append]
      simp only [map_cons, map_nil, sum_cons, sum_nil]
      rw [word_setWord hk]
      rcases lt_trichotomy k m with hlt | h
      . rw [if_pos hlt, if_pos hlt] at ih
        rw [if_neg (by omega), if_pos (by omega), if_pos (by omega)]
        omega
      rw [if_neg (by omega), if_neg (by omega)] at ih
      rcases h with heq | _
      . subst heq
        rw [if_pos rfl, if_pos (by omega), if_pos (by omega)]
        omega
      . rw [if_neg (by omega), if_neg (by omega), if_neg (by omega)]
        omega
  have := hsum n
  rwa [if_pos hk, if_pos hk] at this

theorem popcount_or (hk : k < n) (hdis : ∀ i, (b.word k).getLsbD i = true → m.getLsbD i = false)
    : (b.setWord k (b.word k ||| m)).popcount = b.popcount + countOnes m := by
  have := popcount_setWord (b := b) (v := b.word k ||| m) hk
  rw [countOnes_or hdis] at this
  omega

theorem popcount_and_not (hk : k < n) (hsub : ∀ i, m.getLsbD i = true → (b.word k).getLsbD i = true)
    : (b.setWord k (b.word k &&& ~~~m)).popcount + countOnes m = b.popcount := by
  have := popcount_setWord (b := b) (v := b.word k &&& ~~~m) hk
  have := countOnes_and_not hsub
  omega

theorem popcount_eq_countP : b.popcount = (List.range (64 * n)).countP b.get := by
  have hcount : ∀ (m : Nat), ((List.range m).map fun k => countOnes (b.word k)).sum
      = (List.range (64 * m)).countP b.get := by
    intro m
    induction m with
    | zero => rfl
    | succ m ih =>
      rw [range_succ, map_append, sum_append, ih,
        show 64 * (m + 1) = 64 * m + 64 by omega, range_add, countP_append,
        countP_map]
      congr 1
      simp only [map_cons, map_nil, sum_cons, sum_nil, add_zero]
      apply countP_congr
      intro t ht
      rw [mem_range] at ht
      rw [Function.comp_apply, get_word ht]
  exact hcount n

theorem popcount_le : b.popcount ≤ 64 * n := by
  rw [popcount_eq_countP]
  have := countP_le_length (p := b.get) (l := List.range (64 * n))
  rwa [length_range] at this

theorem popcount_eq_zero_iff : b.popcount = 0 ↔ ∀ j, b.get j = false := by
  rw [popcount_eq_countP, countP_eq_zero]
  constructor
  . intro h j
    cases hj : b.get j with
    | false => rfl
    | true => exact absurd hj (h j (mem_range.mpr (lt_of_get hj)))
  . intro h j _
    rw [h j]
    simp

theorem popcount_eq_length {l : List Nat} (hnodup : l.Nodup) (hmem : ∀ j, b.get j = true ↔ j ∈ l)
    : b.popcount = l.length := by
  rw [popcount_eq_countP, countP_eq_length_filter]
  apply List.Perm.length_eq
  rw [perm_ext_iff_of_nodup (nodup_range.filter _) hnodup]
  intro j
  rw [mem_filter, mem_range, ← hmem]
  constructor
  . intro h
    exact h.2
  . intro h
    exact ⟨lt_of_get h, h⟩

end Bitmap
