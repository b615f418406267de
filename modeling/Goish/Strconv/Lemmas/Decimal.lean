import Goish.Strconv.Impl.Decimal
import Mathlib.Data.Nat.Digits.Lemmas

open List Nat

namespace Strconv

namespace Decimal

structure Normal (a : Decimal) (m : Nat) : Prop where
  digits : ∀ c ∈ a.d, c < 10
  head : a.d.head? ≠ some 0
  zero : a.d = [] → a.dp = 0
  near : a.dp.natAbs ≤ m

variable {a : Decimal} {d l l' : List Nat} {k m n r : Nat}

theorem Normal.mono (h : Normal a m) (hm : m ≤ m') : Normal a m' :=
  { h with near := le_trans h.near hm }

theorem head_of_isPrefix (h : l <+: l') (hhead : l'.head? ≠ some 0) : l.head? ≠ some 0 := by
  obtain ⟨_, rfl⟩ := h
  cases l with
  | nil => simp
  | cons => simpa using hhead

theorem trim_normal (hdigits : ∀ c ∈ a.d, c < 10) (hhead : a.d.head? ≠ some 0) (hnear : a.dp.natAbs ≤ m)
    : Normal a.trim m := by
  have hpre : a.d.rdropWhile (· = 0) <+: a.d := rdropWhile_prefix _ _
  unfold trim
  constructor
  . intro c hc
    exact hdigits c (hpre.subset hc)
  . exact head_of_isPrefix hpre hhead
  . intro hnil
    dsimp only at hnil ⊢
    rw [if_pos hnil]
  . dsimp only
    split
    . simp
    . exact hnear

theorem digitsOf.go_eq (hn : n < 10 ^ fuel) (acc : List Nat)
    : digitsOf.go fuel n acc = (digits 10 n).reverse ++ acc := by
  induction fuel generalizing n acc with
  | zero =>
    rw [lt_one_iff.mp hn, digits_zero]
    rfl
  | succ _ ih =>
    unfold digitsOf.go
    split
    . next hpos =>
      rw [ih (by omega), digits_def' (by decide) hpos, reverse_cons, append_assoc, singleton_append]
    . next hpos =>
      rw [Nat.eq_zero_of_not_pos hpos, Nat.digits_zero]
      rfl

theorem digitsOf_eq (hn : n < 10 ^ 64) : digitsOf n = (digits 10 n).reverse := by
  unfold digitsOf
  rw [digitsOf.go_eq hn, append_nil]

theorem getLast_digits (n : Nat) : (digits 10 n).getLast? ≠ some 0 := by
  by_cases hzero : n = 0
  . simp [hzero]
  . rw [List.getLast?_eq_some_getLast (digits_ne_nil_iff_ne_zero.mpr hzero), ne_eq, Option.some.injEq]
    exact getLast_digit_ne_zero 10 hzero

theorem assign_normal (hn : n < 10 ^ 64) : Normal (a.assign n) 64 := by
  unfold assign
  rw [digitsOf_eq hn]
  apply trim_normal
  . intro c hc
    exact digits_lt_base (by decide) (mem_reverse.mp hc)
  . rw [List.head?_reverse]
    exact getLast_digits n
  . have := (digits_length_le_iff (by decide) n).mpr hn
    rw [length_reverse]
    dsimp only
    omega

structure Picked (k n r : Nat) : Prop where
  lt : n < 10 * 2 ^ k
  pos : 0 < r
  le : 10 ^ (r - 1) ≤ n

theorem shiftRight_eq_zero_iff (n k : Nat) : n >>> k = 0 ↔ n < 2 ^ k := by
  rw [Nat.shiftRight_eq_div_pow, Nat.div_eq_zero_iff]
  have := Nat.two_pow_pos k
  omega

theorem Picked.next (h : Picked k n r) (hlt : n < 2 ^ k) (hc : c < 10) : Picked k (n * 10 + c) (r + 1) := by
  have hpos := h.pos
  have hle := h.le
  refine ⟨by omega, by omega, ?_⟩
  rw [show r + 1 - 1 = r - 1 + 1 by omega, pow_succ]
  omega

theorem pad_picked (h : Picked k n r) (hfuel : 2 ^ k ≤ n * 2 ^ fuel)
    : ∃ n' r', pick.pad k fuel n r = (n', r', []) ∧ Picked k n' r' ∧ 2 ^ k ≤ n' := by
  induction fuel generalizing n r with
  | zero => exact ⟨n, r, rfl, h, by omega⟩
  | succ fuel ih =>
    unfold pick.pad
    split
    . next hzero =>
      apply ih
      . exact h.next ((shiftRight_eq_zero_iff n k).mp hzero) (by decide : 0 < 10)
      have : n * 2 ^ fuel * 2 ≤ n * 2 ^ fuel * 10 := mul_le_mul_left _ (by decide)
      calc
        2 ^ k ≤ n * 2 ^ fuel * 2 := by rwa [mul_assoc]
        _ ≤ n * 2 ^ fuel * 10 := this
        _ = n * 10 * 2 ^ fuel := by rw [mul_right_comm]
    . next hzero =>
      rw [shiftRight_eq_zero_iff] at hzero
      exact ⟨n, r, rfl, h, by omega⟩

theorem pick_picked (h : Picked k n r) (hdigits : ∀ c ∈ d, c < 10)
    : ∃ n' r' d', pick k n r d = some (n', r', d') ∧ Picked k n' r' ∧ 2 ^ k ≤ n' ∧ ∀ c ∈ d', c < 10 := by
  induction d generalizing n r with
  | nil =>
    have hpos : n ≠ 0 := by
      have := h.le
      have := pow_pos (n := r - 1) (show 0 < 10 by decide)
      omega
    unfold pick
    rw [if_neg hpos]
    split
    . next hzero =>
      rw [ne_eq, shiftRight_eq_zero_iff] at hzero
      exact ⟨n, r, [], rfl, h, by omega, by simp⟩
    have hfuel : 2 ^ k ≤ n * 2 ^ (k + 1) := by
      calc
        2 ^ k ≤ 2 ^ (k + 1) := Nat.pow_le_pow_right (by decide) (Nat.le_succ k)
        _ ≤ n * 2 ^ (k + 1) := Nat.le_mul_of_pos_left _ (Nat.pos_of_ne_zero hpos)
    obtain ⟨n', r', hpad, hpicked, hle⟩ := pad_picked h hfuel
    rw [hpad]
    exact ⟨n', r', [], rfl, hpicked, hle, by simp⟩
  | cons c d ih =>
    unfold pick
    split
    . next hzero =>
      rw [ne_eq, shiftRight_eq_zero_iff] at hzero
      exact ⟨n, r, c :: d, rfl, h, by omega, hdigits⟩
    next hzero =>
    rw [ne_eq, not_not, shiftRight_eq_zero_iff] at hzero
    apply ih
    . exact h.next hzero (hdigits c mem_cons_self)
    . exact fun c' hc' => hdigits c' (mem_cons_of_mem c hc')

theorem Picked.le_twenty (h : Picked k n r) (hk : k ≤ maxShift) : r ≤ 20 := by
  have hpow : 2 ^ k ≤ 2 ^ 60 := Nat.pow_le_pow_right (by decide) hk
  have hlt : 10 ^ (r - 1) < 10 ^ 20 := by
    calc
      10 ^ (r - 1) ≤ n := h.le
      _ < 10 * 2 ^ k := h.lt
      _ ≤ 10 * 2 ^ 60 := mul_le_mul_left _ hpow
      _ < 10 ^ 20 := by decide
  have := (Nat.pow_lt_pow_iff_right (by decide)).mp hlt
  omega

theorem shiftRight_lt_ten (hn : n < 10 * 2 ^ k) : n >>> k < 10 := by
  rw [shiftRight_eq_div_pow]
  exact Nat.div_lt_of_lt_mul (by rwa [mul_comm])

theorem rest_lt (n : Nat) (hc : c < 10) : n % 2 ^ k * 10 + c < 10 * 2 ^ k := by
  omega

theorem putDown_digits (hn : n < 10 * 2 ^ k) (hdigits : ∀ c ∈ d, c < 10)
    : (putDown k n d).1 < 10 * 2 ^ k ∧ ∀ c ∈ (putDown k n d).2, c < 10 := by
  induction d generalizing n with
  | nil => exact ⟨hn, by simp [putDown]⟩
  | cons c d ih =>
    obtain ⟨hlt, hout⟩ := ih (rest_lt n (hdigits c mem_cons_self)) fun c' hc' => hdigits c' (mem_cons_of_mem c hc')
    refine ⟨hlt, ?_⟩
    intro x hx
    cases hx with
    | head => exact shiftRight_lt_ten hn
    | tail _ hx => exact hout x hx

theorem putExtra_digits (hn : n < 10 * 2 ^ k) : ∀ c ∈ putExtra k fuel n, c < 10 := by
  induction fuel generalizing n with
  | zero => simp [putExtra]
  | succ _ ih =>
    unfold putExtra
    split
    . intro x hx
      cases hx with
      | head => exact shiftRight_lt_ten hn
      | tail _ hx => exact ih (rest_lt n (by decide : 0 < 10)) x hx
    . simp

theorem putDown_head (hle : 2 ^ k ≤ n) (hlen : 0 < j)
    : ((putDown k n d).2 ++ (putExtra k (k + 2) (putDown k n d).1).take (j - (putDown k n d).2.length)).head? ≠ some 0 := by
  have hne : n >>> k ≠ 0 := by
    rw [ne_eq, shiftRight_eq_zero_iff]
    omega
  cases d with
  | nil =>
    obtain ⟨_, rfl⟩ := exists_eq_succ_of_ne_zero (ne_of_gt hlen)
    have hpos : n > 0 := lt_of_lt_of_le (Nat.two_pow_pos k) hle
    unfold putDown putExtra
    rw [if_pos hpos]
    simpa using hne
  | cons =>
    unfold putDown
    simpa using hne

theorem rightShift_normal (h : Normal a m) (hk : k ≤ maxShift) : Normal (a.rightShift k) (m + 19) := by
  unfold rightShift
  cases hd : a.d with
  | nil =>
    have : pick k 0 0 [] = none := rfl
    rw [this]
    exact ⟨by simp, by simp, fun _ => h.zero hd, le_trans h.near (le_add_right _ _)⟩
  | cons c d =>
    have hdigits := h.digits
    have hhead := h.head
    rw [hd] at hdigits hhead
    have hc : c < 10 := hdigits c mem_cons_self
    have hpicked : Picked k (0 * 10 + c) (0 + 1) := by
      have : c ≠ 0 := by simpa using hhead
      have := Nat.two_pow_pos k
      refine ⟨by omega, by omega, ?_⟩
      simp only [zero_add, Nat.sub_self, pow_zero, zero_mul]
      omega
    obtain ⟨n, r, d', hpick, hpicked', hle, hdigits'⟩ := pick_picked hpicked fun c' hc' => hdigits c' (mem_cons_of_mem c hc')
    have hfirst : pick k 0 0 (c :: d) = some (n, r, d') := by
      rw [pick, if_neg (by simp), hpick]
    obtain ⟨hlt, hout⟩ := putDown_digits hpicked'.lt hdigits'
    rw [hfirst]
    apply trim_normal
    . intro x hx
      rcases mem_append.mp hx with hx | hx
      . exact hout x hx
      . exact putExtra_digits hlt x (mem_of_mem_take hx)
    . exact putDown_head hle (by decide)
    . have := h.near
      have := hpicked'.le_twenty hk
      dsimp only
      omega

theorem carry_le (hn : n ≤ 2 ^ k) (hc : c < 10) : (n + c <<< k) / 10 ≤ 2 ^ k := by
  rw [shiftLeft_eq]
  have : c * 2 ^ k ≤ 9 * 2 ^ k := mul_le_mul_right _ (by omega)
  omega

theorem ofDigits_pos (hlast : d.getLast? ≠ some 0) (hne : d ≠ []) : 0 < ofDigits 10 d := by
  induction d with
  | nil => contradiction
  | cons c d ih =>
    rw [ofDigits_cons]
    cases d with
    | nil =>
      have : c ≠ 0 := by simpa using hlast
      exact Nat.add_pos_left (Nat.pos_of_ne_zero this) _
    | cons =>
      have := ih (by simpa using hlast) (by simp)
      omega

theorem double_eq (hk : k ≤ maxShift) (hn : n ≤ 2 ^ k) (hdigits : ∀ c ∈ d, c < 10) (hlast : d.getLast? ≠ some 0)
    : double k d n = digits 10 (n + ofDigits 10 d * 2 ^ k) := by
  induction d generalizing n with
  | nil =>
    have hpow : 2 ^ k ≤ 2 ^ 60 := Nat.pow_le_pow_right (by decide) hk
    unfold double
    rw [digitsOf_eq (by omega), reverse_reverse, Nat.ofDigits_nil, zero_mul, add_zero]
  | cons c d ih =>
    have hpos : 0 < n + ofDigits 10 (c :: d) * 2 ^ k :=
      Nat.add_pos_right n (Nat.mul_pos (ofDigits_pos hlast (by simp)) (Nat.two_pow_pos k))
    have hsum : n + Nat.ofDigits 10 (c :: d) * 2 ^ k = n + c <<< k + 10 * (Nat.ofDigits 10 d * 2 ^ k) := by
      rw [Nat.ofDigits_cons, Nat.shiftLeft_eq, add_mul, mul_assoc, add_assoc]
    have hrest : d.getLast? ≠ some 0 := by
      cases d with
      | nil => simp
      | cons => simpa using hlast
    unfold double
    rw [ih (carry_le hn (hdigits c mem_cons_self)) (fun x hx => hdigits x (mem_cons_of_mem c hx)) hrest,
      digits_def' (by decide) hpos, hsum, add_mul_mod_self_left, add_mul_div_left _ _ (by decide)]

theorem Normal.double_eq (h : Normal a m) (hk : k ≤ maxShift)
    : (double k a.d.reverse 0).reverse = (Nat.digits 10 (Nat.ofDigits 10 a.d.reverse * 2 ^ k)).reverse := by
  have hlast : a.d.reverse.getLast? ≠ some 0 := by
    rw [List.getLast?_reverse]
    exact h.head
  rw [Decimal.double_eq hk (zero_le _) (fun c hc => h.digits c (mem_reverse.mp hc)) hlast, zero_add]

theorem newDigits_le (d : List Nat) (k : Nat) : newDigits d k ≤ 19 := by
  have hall : ∀ e ∈ leftcheats, e.1 ≤ 19 := by decide
  have hcheat : (leftcheats.getD k (0, 0)).1 ≤ 19 := by
    rw [getD_eq_getElem?_getD]
    cases hk : leftcheats[k]? with
    | none => exact zero_le _
    | some e => exact hall e (mem_of_getElem? hk)
  unfold newDigits
  dsimp only
  split
  . omega
  . exact hcheat

theorem leftShift_normal (h : Normal a m) (hk : k ≤ maxShift) : Normal (a.leftShift k) (m + 19) := by
  have hdelta := newDigits_le a.d k
  unfold leftShift
  rw [h.double_eq hk]
  generalize newDigits a.d k = delta at hdelta
  generalize ofDigits 10 a.d.reverse * 2 ^ k = v
  have hpre : ((digits 10 v).reverse.take maxDigits).take (a.d.length + delta) <+: (digits 10 v).reverse :=
    ( take_prefix _ _).trans ( take_prefix _ _)
  apply trim_normal
  . intro c hc
    exact digits_lt_base (by decide) (mem_reverse.mp (hpre.subset hc))
  . apply head_of_isPrefix hpre
    rw [List.head?_reverse]
    exact getLast_digits v
  . have := h.near
    dsimp only
    omega

theorem shifts_normal {shift : Decimal → Nat → Decimal} {loop : Nat → Decimal → Nat → Decimal}
    (hshift : ∀ {a m k}, Normal a m → k ≤ maxShift → Normal (shift a k) (m + 19)) (hzero : ∀ a k, loop 0 a k = a)
    (hsucc : ∀ fuel a k, loop (fuel + 1) a k = if k > maxShift then loop fuel (shift a maxShift) (k - maxShift) else shift a k)
    (h : Normal a m) (hk : k ≤ 60 * (j + 1)) : Normal (loop fuel a k) (m + 19 * (j + 1)) := by
  induction fuel generalizing a m k j with
  | zero =>
    rw [hzero]
    exact h.mono (le_add_right _ _)
  | succ _ ih =>
    rw [hsucc]
    split
    . next hlt =>
      unfold maxShift at hlt
      rcases j with _ | j
      . omega
      have := ih (hshift h (le_refl maxShift)) (by unfold maxShift; omega : k - maxShift ≤ 60 * (j + 1))
      exact this.mono (by omega)
    . next hlt => exact (hshift h (le_of_not_gt hlt)).mono (by omega)

theorem shift_normal {k : ℤ} (h : Normal a m) (hk : k.natAbs ≤ 60 * (j + 1)) : Normal (a.shift k) (m + 19 * (j + 1)) := by
  unfold shift
  split
  . exact h.mono (le_add_right _ _)
  split
  . exact shifts_normal leftShift_normal (fun _ _ => rfl) (fun _ _ _ => rfl) h (by omega)
  . split
    . exact shifts_normal rightShift_normal (fun _ _ => rfl) (fun _ _ _ => rfl) h (by omega)
    . exact h.mono (le_add_right _ _)

theorem roundDown_normal (h : Normal a m) (nd : ℤ) : Normal (a.roundDown nd) m := by
  unfold roundDown
  split
  . exact h
  apply trim_normal
  . intro c hc
    exact h.digits c (mem_of_mem_take hc)
  . exact head_of_isPrefix ( take_prefix _ _) h.head
  . exact h.near

theorem roundUp_normal (h : Normal a m) (nd : ℤ) : Normal (a.roundUp nd) (m + 1) := by
  unfold roundUp
  split
  . exact h.mono (le_succ m)
  have hpre : (a.d.take nd.toNat).rdropWhile (· ≥ 9) <+: a.d := ( rdropWhile_prefix _ _).trans ( take_prefix _ _)
  have hlast := rdropWhile_last_not (· ≥ 9) (a.d.take nd.toNat)
  generalize (a.d.take nd.toNat).rdropWhile (· ≥ 9) = l at hpre hlast
  split
  . next c d hl =>
    obtain rfl : l = d.reverse ++ [c] := by rw [← reverse_reverse l, hl, reverse_cons]
    have hc : c < 9 := by simpa using hlast
    constructor
    . intro x hx
      rcases mem_append.mp hx with hx | hx
      . exact h.digits x (hpre.subset (mem_append_left _ hx))
      . rw [mem_singleton.mp hx]
        omega
    . have hhead := head_of_isPrefix hpre h.head
      cases hd : d.reverse with
      | nil => simp
      | cons =>
        rw [hd] at hhead
        simpa using hhead
    . intro hnil
      simp at hnil
    . have := h.near
      dsimp only
      omega
  . constructor
    . simp
    . simp
    . simp
    . have := h.near
      dsimp only
      omega

theorem round_normal (h : Normal a m) (nd : ℤ) : Normal (a.round nd) (m + 1) := by
  unfold round
  split
  . exact h.mono (le_succ m)
  . split
    . exact roundUp_normal h nd
    . exact (roundDown_normal h nd).mono (le_succ m)

end Decimal

end Strconv
