import Goish.Encoding.Binary.Impl.Varint

namespace Binary

open List appendUvarint Nat

/-- The number whose digits of seven bits the bytes carry, the low ones first. -/
def leb : List UInt8 → Nat
  | [] => 0
  | c :: b => c.toNat % 128 + 128 * leb b

/-- All bytes but the last one have the high bit set. -/
def IsLeb : List UInt8 → Prop
  | [] => False
  | c :: b => if c < 0x80 then b = [] else IsLeb b

/-- After `k` bytes with the high bit set comes one that carries more than a bit, or one that a further byte follows. -/
def Overflows (k : Nat) (b : List UInt8) : Prop :=
  (∀ c ∈ b.take k, 0x80 ≤ c) ∧ ∃ c t, b.drop k = c :: t ∧ (2 ≤ c ∧ c ≤ 0x7f ∨ 0x80 ≤ c ∧ t ≠ [])

/-- The bytes of `b` up to the `m`-th one end a number `v` that begins with the `i` digits of `x`. -/
def Ends (i x : Nat) (b : List UInt8) (m v : Nat) : Prop :=
  i < m ∧ m ≤ i + b.length ∧ m ≤ 10 ∧ IsLeb (b.take (m - i)) ∧ v = x + 128 ^ i * leb (b.take (m - i))

theorem take_cons_sub {c : UInt8} (h : i < m) (b : List UInt8) : (c :: b).take (m - i) = c :: b.take (m - (i + 1)) := by
  rw [show m - i = m - (i + 1) + 1 by omega, take_succ_cons]

theorem ends_last (hi : i ≤ 9) (hc : c < 0x80) : Ends i x (c :: b) m v ↔ v = x + 128 ^ i * c.toNat ∧ m = i + 1 := by
  have hmod : c.toNat % 128 = c.toNat := mod_eq_of_lt hc
  constructor
  . rintro ⟨him, hlen, hm, hleb, hv⟩
    rw [take_cons_sub him] at hleb hv
    rw [IsLeb, if_pos hc] at hleb
    rw [hleb, leb, leb, hmod] at hv
    rw [take_eq_nil_iff, eq_nil_iff_length_eq_zero] at hleb
    rw [length_cons] at hlen
    exact ⟨hv, by omega⟩
  . rintro ⟨rfl, rfl⟩
    rw [Ends, take_cons_sub i.lt_succ_self, Nat.sub_self, take_zero, IsLeb, if_pos hc, leb, leb, hmod]
    exact ⟨i.lt_succ_self, by simp, by omega, rfl, rfl⟩

theorem ends_cons (hc : ¬c < 0x80) : Ends i x (c :: b) m v ↔ Ends (i + 1) (x + 128 ^ i * (c.toNat % 128)) b m v := by
  by_cases h : i + 1 < m
  . simp only [Ends, take_cons_sub (lt_of_succ_lt h), IsLeb, leb, if_neg hc, length_cons, pow_succ]
    lia
  . refine iff_of_false ?_ (h ·.1)
    rintro ⟨him, -, -, hleb, -⟩
    obtain rfl : m = i + 1 := by omega
    simp [IsLeb, hc] at hleb

theorem toNat_or_shift {x : BitVec 64} (hx : x.toNat < 128 ^ i) (hc : x.toNat + 128 ^ i * c.toNat < 2 ^ 64)
    : (x ||| touint c <<< (7 * i)).toNat = x.toNat + 128 ^ i * c.toNat := by
  rw [show 128 ^ i = 2 ^ (7 * i) from (pow_mul 2 7 i).symm] at *
  have hbyte : c.toNat % 2 ^ 64 = c.toNat := mod_eq_of_lt (c.toNat_lt.trans (by decide))
  rw [BitVec.toNat_or, BitVec.toNat_shiftLeft, touint, BitVec.toNat_ofNat, hbyte, Nat.or_comm, Nat.mod_eq_of_lt,
    ← Nat.shiftLeft_add_eq_or_of_lt hx, Nat.shiftLeft_eq, Nat.add_comm, Nat.mul_comm]
  rw [Nat.shiftLeft_eq, Nat.mul_comm]
  omega

theorem fits_iff (hi : i ≤ 9) (hx : x < 128 ^ i) (hc : c < 128) : x + 128 ^ i * c < 2 ^ 64 ↔ ¬(i = 9 ∧ 1 < c) := by
  rcases hi.lt_or_eq with h | rfl
  . have hpow : 128 ^ i ≤ 128 ^ 8 := Nat.pow_le_pow_right (by decide) (by omega)
    have hmul : 128 ^ i * c ≤ 128 ^ i * 127 := Nat.mul_le_mul_left _ (by omega)
    omega
  . omega

theorem uvarint.go_eq_iff {v : BitVec 64} {m : Nat} (hi : i ≤ 10) (hx : i ≤ 9 → x.toNat = n ∧ n < 128 ^ i) (hm : 0 < m)
    : go b i x (7 * i) = (v, (m : Int)) ↔ Ends i n b m v.toNat := by
  induction b generalizing i x n with
  | nil =>
    simp [go, Ends, IsLeb]
    omega
  | cons c b ih =>
    unfold go
    split
    next h =>
      subst h
      exact iff_of_false (by simp; omega) fun h => absurd h.1 (not_lt.mpr h.2.2.1)
    next h =>
    have hi' : i ≤ 9 := by unfold maxVarintLen64 at h; omega
    obtain ⟨rfl, hlt⟩ := hx hi'
    split
    next hc =>
      have hfits := fits_iff hi' hlt hc
      rw [ends_last hi' hc]
      split
      next hone =>
        exact iff_of_false (by simp; omega) fun h => hfits.mp (h.1 ▸ v.isLt) hone
      next hone =>
        rw [← toNat_or_shift hlt (hfits.mpr hone), BitVec.toNat_inj, Prod.mk.injEq]
        lia
    next hc =>
      rw [ends_cons hc, ← ih (x := x ||| touint (c &&& 127) <<< (7 * i))]
      . rfl
      . omega
      intro hi
      have hlow : (c &&& 0x7f).toNat = c.toNat % 128 := and_two_pow_sub_one_eq_mod c.toNat 7
      have hmod : c.toNat % 128 < 128 := mod_lt _ (by decide)
      have hfits := (fits_iff hi' hlt hmod).mpr (by omega)
      rw [← hlow] at hfits ⊢
      rw [toNat_or_shift hlt hfits, hlow, pow_succ]
      have := mul_le_mul_left (128 ^ i) (le_of_lt_succ hmod)
      exact ⟨rfl, by omega⟩

theorem overflows_zero : Overflows 0 (c :: b) ↔ 2 ≤ c ∧ c ≤ 0x7f ∨ 0x80 ≤ c ∧ b ≠ [] := by
  simp [Overflows]

theorem overflows_succ : Overflows (k + 1) (c :: b) ↔ 0x80 ≤ c ∧ Overflows k b := by
  simp [Overflows, and_assoc]

theorem uvarint.go_neg_iff (hi : i + k = 9) : (go b i x s).2 < 0 ↔ Overflows k b := by
  induction b generalizing i k x s with
  | nil => simp [go, Overflows]
  | cons c b ih =>
    unfold go maxVarintLen64
    rw [if_neg (by omega)]
    cases k with
    | zero =>
      obtain rfl : i = 9 := hi
      rw [overflows_zero]
      cases b with
      | nil =>
        split_ifs
        all_goals
          simp [go]
          lia
      | cons d b =>
        split_ifs
        all_goals
          simp [go, maxVarintLen64]
          lia
    | succ k =>
      rw [overflows_succ]
      split_ifs
      . lia
      . lia
      . rw [ih (k := k) (by omega)]
        lia

theorem readUvarint.go_of_uvarint (hi : i + fuel = 10)
    : (0 < (uvarint.go r i x s).2 → go fuel r i x s = ((uvarint.go r i x s).1, none)) ∧
      ((uvarint.go r i x s).2 < 0 → (go fuel r i x s).2 = some .overflow) := by
  induction r generalizing fuel i x s with
  | nil => simp [uvarint.go]
  | cons c r ih =>
    unfold uvarint.go maxVarintLen64
    cases fuel with
    | zero => simp [go, show i = 10 from hi]
    | succ fuel =>
      rw [if_neg (by omega)]
      unfold go maxVarintLen64
      split_ifs
      . lia
      . lia
      . exact ih (by omega)

theorem toNat_tobyte_or (x : BitVec 64) : (tobyte x ||| 0x80).toNat = 128 + x.toNat % 128 := by
  have hor : ∀ n < 256, n ||| 128 = 128 + n % 128 := by decide +kernel
  rw [tobyte, UInt8.toNat_or, UInt8.toNat_ofNat']
  exact (hor _ (mod_lt _ (by decide))).trans (by rw [mod_mod_of_dvd _ (by decide)])

theorem pushed_spec (x : BitVec 64)
    : IsLeb (pushed x) ∧ leb (pushed x) = x.toNat ∧ ∀ k, x.toNat < 128 ^ (k + 1) → (pushed x).length ≤ k + 1 := by
  fun_induction pushed x with
  | case1 x h _ ih =>
    obtain ⟨hleb, hval, hlen⟩ := ih
    have hbyte := toNat_tobyte_or x
    have hge : ¬tobyte x ||| 0x80 < 0x80 := by
      rw [UInt8.lt_iff_toNat_lt, hbyte]
      exact not_lt.mpr (Nat.le_add_right ..)
    rw [BitVec.toNat_ushiftRight, shiftRight_eq_div_pow] at hval hlen
    rw [IsLeb, if_neg hge, leb, hval, hbyte]
    refine ⟨hleb, by omega, fun k hk => ?_⟩
    cases k with
    | zero => exact absurd hk (not_lt.mpr h)
    | succ k => exact succ_le_succ (hlen k (by rw [pow_succ] at hk; omega))
  | case2 x h =>
    have hx : x.toNat < 128 := BitVec.not_le.mp h
    have hbyte : (tobyte x).toNat = x.toNat := mod_eq_of_lt (by omega)
    have hlt : tobyte x < 0x80 := by rwa [UInt8.lt_iff_toNat_lt, hbyte]
    simp [IsLeb, leb, hlt, hbyte, mod_eq_of_lt hx]

theorem uvarint_eq_iff {v : BitVec 64} {n : Nat} (hn : 0 < n)
    : uvarint b = (v, (n : Int)) ↔ n ≤ b.length ∧ n ≤ 10 ∧ IsLeb (b.take n) ∧ v.toNat = leb (b.take n) := by
  have hiff := uvarint.go_eq_iff (b := b) (v := v) (x := 0) (n := 0) (zero_le 10) (fun _ => by decide) hn
  simpa [Ends, hn, uvarint] using hiff

theorem uvarint_pushed (x : BitVec 64) (t : List UInt8)
    : uvarint (pushed x ++ t) = (x, ((pushed x).length : Int)) ∧ (pushed x).length ≤ 10 := by
  obtain ⟨hleb, hval, hlen⟩ := pushed_spec x
  have hten := hlen 9 (by have := x.isLt; omega)
  have hpos : 0 < (pushed x).length := length_pos_iff.mpr fun h => by rwa [h] at hleb
  refine ⟨(uvarint_eq_iff hpos).mpr ⟨by simp, hten, ?_⟩, hten⟩
  rw [take_left]
  exact ⟨hleb, hval.symm⟩

theorem putUvarint.go_eq (l r : List UInt8) (x : BitVec 64)
    : go (l ++ r) x l.length =
        if (pushed x).length ≤ r.length then
          some (l ++ (pushed x ++ r.drop (pushed x).length), (l.length + (pushed x).length : Int))
        else
          none := by
  fun_induction pushed x generalizing l r with
  | case1 x h _ ih =>
    rw [go, dif_pos h]
    cases r with
    | nil => simp
    | cons d r =>
      have hset : (l ++ d :: r).set l.length (tobyte x ||| 0x80) = l ++ [tobyte x ||| 0x80] ++ r := by simp
      have hih := ih (l ++ [tobyte x ||| 0x80]) r
      rw [length_append, length_singleton] at hih
      rw [if_neg (by simp), hset, hih]
      simp [Int.add_assoc, Int.add_comm 1]
  | case2 x h =>
    rw [go, dif_neg h]
    cases r <;> simp

theorem unzigzag_zigzag (x : BitVec 64) : unzigzag (zigzag x) = x := by
  have hodd (z : BitVec 64) : z &&& 1 ≠ 0 ↔ z.toNat % 2 = 1 := by
    rw [← and_one_is_mod, Ne, ← BitVec.toNat_inj]
    simp
  have hneg : x.slt 0 = decide (2 ^ 63 ≤ x.toNat) := x.slt_zero_eq_msb.trans x.msb_eq_decide
  apply BitVec.eq_of_toNat_eq
  unfold zigzag unzigzag
  simp only [hodd, hneg, decide_eq_true_eq]
  split_ifs
  all_goals
    simp only [BitVec.toNat_not, BitVec.toNat_ushiftRight, BitVec.toNat_shiftLeft, shiftLeft_eq,
      shiftRight_eq_div_pow] at *
    omega

theorem varint_exact (x y : BitVec 64) (t b : List UInt8)
    : uvarint (appendUvarint [] x ++ t) = (x, ((appendUvarint [] x).length : Int)) ∧
      varint (appendVarint [] y ++ t) = (y, ((appendVarint [] y).length : Int)) ∧
      (appendUvarint [] x).length ≤ 10 ∧ (appendVarint [] y).length ≤ 10 ∧
      putUvarint b x =
        (if (appendUvarint [] x).length ≤ b.length then
          some (appendUvarint [] x ++ b.drop (appendUvarint [] x).length, ((appendUvarint [] x).length : Int))
        else
          none) ∧
      (∀ v (n : Nat), 0 < n →
        (uvarint b = (v, (n : Int)) ↔ n ≤ b.length ∧ n ≤ 10 ∧ IsLeb (b.take n) ∧ v.toNat = leb (b.take n)) ∧
        (uvarint b = (v, (n : Int)) → readUvarint b = (v, none))) ∧
      ((uvarint b).2 < 0 ↔ Overflows 9 b) ∧ (Overflows 9 b → (readUvarint b).2 = some .overflow) := by
  have hput := putUvarint.go_eq [] b x
  simp only [nil_append, length_nil, cast_zero, Int.zero_add] at hput
  obtain ⟨hx, hxlen⟩ := uvarint_pushed x t
  obtain ⟨hy, hylen⟩ := uvarint_pushed (zigzag y) t
  obtain ⟨hread, hover⟩ := readUvarint.go_of_uvarint (r := b) (x := 0) (s := 0) (zero_add 10)
  have hneg : (uvarint b).2 < 0 ↔ Overflows 9 b := uvarint.go_neg_iff (by decide)
  refine ⟨hx, ?_, hxlen, hylen, hput, fun v n hn => ⟨uvarint_eq_iff hn, fun h => ?_⟩, hneg, hover ∘ hneg.mpr⟩
  . unfold varint appendVarint appendUvarint
    rw [nil_append, hy]
    simp only [unzigzag_zigzag]
  . unfold uvarint at h
    rw [h] at hread
    exact hread (by omega)

end Binary
