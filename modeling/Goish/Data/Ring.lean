import Mathlib.Data.Fin.Basic
import Mathlib.Algebra.GroupWithZero.Nat

/-! Rings of `N` cells. A position is any number, and its cell is the one at its remainder. -/

open List Function

namespace Ring

variable {N : Nat} [NeZero N] {f : Fin N → α}

def read (f : Fin N → α) (h n : Nat) : List α :=
  (List.range n).map fun i => f (Fin.ofNat N (h + i))

def write (f : Fin N → α) (h : Nat) : List α → Fin N → α
  | [] => f
  | x :: l => write (update f (Fin.ofNat N h) x) (h + 1) l

@[simp]
theorem length_read : (read f h n).length = n := by
  simp [read]

@[simp]
theorem read_zero : read f h 0 = [] :=
  rfl

theorem read_add : read f h (m + n) = read f h m ++ read f (h + m) n := by
  simp [read, range_add, Nat.add_assoc, Function.comp_def]

theorem read_one : read f h 1 = [f (Fin.ofNat N h)] := by
  simp [read]

theorem read_succ : read f h (n + 1) = f (Fin.ofNat N h) :: read f (h + 1) n := by
  rw [Nat.add_comm n 1, read_add, read_one]
  rfl

theorem read_succ_last : read f h (n + 1) = read f h n ++ [f (Fin.ofNat N (h + n))] := by
  rw [read_add, read_one]

theorem ofNat_congr (h : a % N = b % N) : Fin.ofNat N a = Fin.ofNat N b :=
  Fin.ext h

theorem read_congr (h : a % N = b % N) : read f a n = read f b n := by
  apply map_congr_left
  intro i _
  apply congrArg f
  apply ofNat_congr
  rw [Nat.add_mod, h, ← Nat.add_mod]

theorem ofNat_ne (hlt : a < b) (hN : b < a + N) : Fin.ofNat N a ≠ Fin.ofNat N b := by
  intro heq
  have hmod : a % N = b % N := congrArg Fin.val heq
  have hzero := Nat.sub_mod_eq_zero_of_mod_eq hmod.symm
  rw [Nat.mod_eq_of_lt (by omega)] at hzero
  omega

theorem read_update_of_le (hle : h + n ≤ k) (hN : k < h + N) (x : α)
    : read (update f (Fin.ofNat N k) x) h n = read f h n := by
  apply map_congr_left
  intro i hi
  rw [mem_range] at hi
  apply update_of_ne
  exact ofNat_ne (by omega) (by omega)

theorem read_update_push (hN : n < N) (x : α)
    : read (update f (Fin.ofNat N (h + n)) x) h (n + 1) = read f h n ++ [x] := by
  rw [read_succ_last, read_update_of_le le_rfl (by omega), update_self]

theorem read_write_of_le (l : List α) (hle : h + n ≤ k) (hN : k + l.length ≤ h + N)
    : read (write f k l) h n = read f h n := by
  induction l generalizing f k with
  | nil => rfl
  | cons x l ih =>
    rw [length_cons] at hN
    unfold write
    rw [ih (by omega) (by omega), read_update_of_le hle (by omega)]

theorem read_write (l : List α) (hN : l.length ≤ N) : read (write f h l) h l.length = l := by
  induction l generalizing f h with
  | nil => rfl
  | cons x l ih =>
    rw [length_cons] at hN ⊢
    have hone : read (write (update f (Fin.ofNat N h) x) (h + 1) l) h 1 = [x] := by
      rw [read_write_of_le l le_rfl (by omega), read_one, update_self]
    rw [read_succ, ← singleton_append, ← read_one (f := write f h (x :: l))]
    unfold write
    rw [hone, ih (by omega)]
    rfl

theorem write_append (l l' : List α) : write f h (l ++ l') = write (write f h l) (h + l.length) l' := by
  induction l generalizing f h with
  | nil => rfl
  | cons x l ih =>
    rw [cons_append, length_cons, write, ih, Nat.add_right_comm, Nat.add_assoc]
    rfl

theorem foldl_update (x : Nat → α) (n : Nat)
    : (List.range n).foldl (fun f i => update f (Fin.ofNat N (h + i)) (x i)) f =
        write f h ((List.range n).map x) := by
  induction n with
  | zero => rfl
  | succ n ih =>
    rw [range_succ, foldl_append, map_append, write_append, ih, length_map,
      length_range]
    rfl

end Ring
