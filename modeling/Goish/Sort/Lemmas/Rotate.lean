import Mathlib.Data.List.Induction
import Goish.Sort.Lemmas.Interface

open List Option

namespace SortInterface

theorem swaps_succ (f g : Nat → Int) (n : Nat) (d : List α)
    : (List.range (n + 1)).foldlM (fun d k => swap d (f k) (g k)) d
        = (swap d (f 0) (g 0)).bind fun d => (List.range n).foldlM (fun d k => swap d (f (k + 1)) (g (k + 1))) d := by
  rw [range_succ_eq_map, foldlM_cons, bind_eq_bind]
  congr
  funext d
  rw [foldlM_map]

theorem swaps_congr {f g f' g' : Nat → Int} (hf : ∀ k, f k = f' k) (hg : ∀ k, g k = g' k) (n : Nat) (d : List α)
    : (List.range n).foldlM (fun d k => swap d (f k) (g k)) d
        = (List.range n).foldlM (fun d k => swap d (f' k) (g' k)) d := by
  rw [funext hf, funext hg]

theorem moveRight_spec (x v y : List α) (e : α)
    : (List.range v.length).foldlM (fun d (k : Nat) => swap d (x.length + k) (x.length + k + 1)) (x ++ e :: (v ++ y))
        = some (x ++ (v ++ e :: y)) := by
  induction v generalizing x with
  | nil => rfl
  | cons q v ih =>
    have hswap : swap (x ++ e :: (q :: v ++ y)) (x.length + (0 : Nat)) (x.length + (0 : Nat) + 1)
        = some ((x ++ [q]) ++ e :: (v ++ y)) := by
      simpa using swap_append x [] (v ++ y) e q
    rw [length_cons, swaps_succ, hswap, bind_some]
    apply (swaps_congr _ _ v.length _).trans ((ih (x ++ [q])).trans (by simp))
    all_goals
      intro k
      rw [length_append, length_singleton]
      omega

theorem moveLeft_spec (x u y : List α) (e : α) : (List.range u.length).foldlM
          (fun d (k : Nat) => swap d ((x.length + u.length : Nat) - k) ((x.length + u.length : Nat) - k - 1))
          (x ++ (u ++ e :: y))
        = some (x ++ e :: (u ++ y)) := by
  induction u using List.reverseRecOn generalizing y with
  | nil => rfl
  | append_singleton u q ih =>
    have hswap : swap (x ++ (u ++ [q] ++ e :: y)) ((x.length + (u ++ [q]).length : Nat) - (0 : Nat))
        ((x.length + (u ++ [q]).length : Nat) - (0 : Nat) - 1)
        = some (x ++ (u ++ e :: q :: y)) := by
      have h := swap_append_symm (x ++ u) [] y q e
      simp only [length_append, length_nil, nil_append, append_assoc] at h
      rw [← h, length_append, length_singleton]
      simp only [append_assoc, singleton_append]
      congr 1
      omega
    rw [show (u ++ [q]).length = u.length + 1 by simp] at *
    rw [swaps_succ, hswap, bind_some]
    apply (swaps_congr _ _ u.length _).trans ((ih (q :: y)).trans (by simp))
    all_goals
      intro k
      omega

theorem swapRange_spec (x u w v y : List α) (hlen : u.length = v.length)
    : swapRange (x ++ (u ++ (w ++ (v ++ y)))) x.length (x.length + u.length + w.length : Nat) u.length
        = some (x ++ (v ++ (w ++ (u ++ y)))) := by
  unfold swapRange
  rw [Int.toNat_natCast]
  induction u generalizing x w v with
  | nil =>
    rw [eq_nil_of_length_eq_zero hlen.symm]
    rfl
  | cons p u ih =>
    rcases v with _ | ⟨q, v⟩
    . contradiction
    have hswap : swap (x ++ (p :: u ++ (w ++ (q :: v ++ y)))) (x.length + (0 : Nat))
        ((x.length + (p :: u).length + w.length : Nat) + (0 : Nat))
        = some ((x ++ [q]) ++ (u ++ ((w ++ [p]) ++ (v ++ y)))) := by
      have h := swap_append x (u ++ w) (v ++ y) p q
      simp only [length_append, append_assoc, cons_append, nil_append] at h ⊢
      rw [← h]
      congr 1
      rw [length_cons]
      omega
    rw [length_cons] at *
    rw [swaps_succ, hswap, bind_some]
    apply (swaps_congr _ _ u.length _).trans ((ih (x ++ [q]) (w ++ [p]) v (Nat.succ.inj hlen)).trans (by simp))
    . intro k
      rw [length_append, length_singleton]
      omega
    . intro k
      simp only [length_append, length_singleton]
      omega

theorem rotate_go_spec (x u v y : List α) (hu : u ≠ []) (hv : v ≠ []) (hfuel : u.length + v.length ≤ fuel)
    (hm : m = ((x.length + u.length : Nat) : Int))
    : rotate.go m fuel (x ++ (u ++ (v ++ y))) u.length v.length = some (x ++ (v ++ (u ++ y))) := by
  induction fuel generalizing x u v y with
  | zero =>
    have := length_pos_iff.mpr hu
    omega
  | succ _ ih =>
    have hupos := length_pos_iff.mpr hu
    have hvpos := length_pos_iff.mpr hv
    have hleft : m - u.length = x.length := by omega
    rw [rotate.go, hleft]
    split
    . next heq =>
      have hswap := swapRange_spec x u [] v y (by omega)
      rwa [length_nil, Nat.add_zero, ← hm] at hswap
    next hne =>
    split
    . next hgt =>
      -- The first part of `u` comes behind the rest of it.
      obtain ⟨u1, u2, rfl, hlen⟩ : ∃ u1 u2, u = u1 ++ u2 ∧ u1.length = v.length :=
        ⟨u.take v.length, u.drop v.length, (take_append_drop ..).symm, by rw [length_take]; omega⟩
      have hswap := swapRange_spec x u1 u2 v y hlen
      rw [Nat.add_assoc, ← length_append, ← hm, hlen] at hswap
      rw [length_append] at *
      have hrest := ih (x ++ v) u2 u1 y (length_pos_iff.mp (by omega)) (length_pos_iff.mp (by omega))
        (by omega) (by rw [length_append]; omega)
      rw [append_assoc, hswap, bind_eq_bind, bind_some,
        show ((u1.length + u2.length : Nat) : Int) - v.length = u2.length by omega, ← hlen]
      simpa using hrest
    . next hle =>
      -- The last part of `v` comes before the rest of it.
      obtain ⟨v1, v2, rfl, hlen⟩ : ∃ v1 v2, v = v1 ++ v2 ∧ u.length = v2.length :=
        ⟨v.take (v.length - u.length), v.drop (v.length - u.length), (take_append_drop ..).symm,
          by rw [length_drop]; omega⟩
      have hswap := swapRange_spec x u v1 v2 y hlen
      rw [length_append] at *
      have hrest := ih x v2 v1 (u ++ y) (length_pos_iff.mp (by omega)) (length_pos_iff.mp (by omega))
        (by omega) (by omega)
      rw [show m + ((v1.length + v2.length : Nat) : Int) - u.length = (x.length + u.length + v1.length : Nat) by omega,
        append_assoc, hswap, bind_eq_bind, bind_some,
        show ((v1.length + v2.length : Nat) : Int) - u.length = v1.length by omega, hlen]
      simpa using hrest

theorem rotate_spec (x u v y : List α) (hu : u ≠ []) (hv : v ≠ [])
    : rotate (x ++ (u ++ (v ++ y))) x.length (x.length + u.length : Nat) (x.length + u.length + v.length : Nat)
        = some (x ++ (v ++ (u ++ y))) := by
  unfold rotate
  rw [show ((x.length + u.length : Nat) : Int) - x.length = u.length by omega,
    show ((x.length + u.length + v.length : Nat) : Int) - (x.length + u.length : Nat) = v.length by omega]
  exact rotate_go_spec x u v y hu hv (by omega) rfl

end SortInterface
