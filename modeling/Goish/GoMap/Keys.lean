import Goish.GoMap.Lemmas.Map

namespace GoMap

theorem mix_inj {h b b' : UInt64} (heq : (h ^^^ b) * 0x010000000001b3 = (h ^^^ b') * 0x010000000001b3) : b = b' := by
  have hinv : (0x010000000001b3 : UInt64) * 0x11e66957aff6957b = 1 := by decide
  have hmul := congrArg (· * (0x11e66957aff6957b : UInt64)) heq
  rw [UInt64.mul_assoc, UInt64.mul_assoc, hinv, UInt64.mul_one, UInt64.mul_one] at hmul
  rw [← UInt64.zero_xor (a := b), ← UInt64.xor_self (a := h), UInt64.xor_assoc, hmul, ← UInt64.xor_assoc,
    UInt64.xor_self, UInt64.zero_xor]

namespace Float

variable {fmt : Format}

theorem isZero_iff (x : Float fmt)
    : x.isZero = true ↔ x.bits = 0#_ ∨ x.bits = BitVec.ofNat _ (2 ^ (8 * fmt.bytes - 1)) := by
  unfold isZero magnitude
  rw [decide_eq_true_iff, ← BitVec.toNat_inj, ← BitVec.toNat_inj, BitVec.toNat_ofNat, BitVec.toNat_ofNat]
  cases fmt
  all_goals
    simp only [Format.bytes] at *
    omega

theorem hash_zeros_ne (seed : UInt64) : hashBytes (toLeBytes fmt.bytes 0#_) seed
        ≠ hashBytes (toLeBytes fmt.bytes (BitVec.ofNat _ (2 ^ (8 * fmt.bytes - 1)))) seed := by
  intro heq
  cases fmt
  all_goals exact absurd (mix_inj heq) (by decide)

theorem beq_comm (x y : Float fmt) : (x == y) = (y == x) := by
  show (!x.isNan && !y.isNan && (x.bits == y.bits || x.isZero && y.isZero))
    = (!y.isNan && !x.isNan && (y.bits == x.bits || y.isZero && x.isZero))
  rw [Bool.and_comm (!x.isNan), BEq.comm (a := x.bits), Bool.and_comm x.isZero]

theorem isNan_eq_false {x : Float fmt} (h : x.isZero = true) : x.isNan = false := by
  unfold isZero isNan at *
  rw [of_decide_eq_true h]
  exact decide_eq_false (Nat.not_lt_zero _)

theorem hash_respects_iff (x y : Float fmt) (seed : UInt64)
    : ((x == y) = true → GoHash.goHash x seed = GoHash.goHash y seed) ↔
        (x.isZero && y.isZero && x.bits != y.bits) = false := by
  have hbeq : (x == y) = (!x.isNan && !y.isNan && (x.bits == y.bits || x.isZero && y.isZero)) := rfl
  have hhash : ∀ z : Float fmt, GoHash.goHash z seed = hashBytes (toLeBytes fmt.bytes z.bits) seed :=
    fun _ => rfl
  rw [hbeq, hhash, hhash]
  by_cases hbits : x.bits = y.bits
  . simp [hbits]
  cases hzero : x.isZero && y.isZero with
  | false => simp [hbits]
  | true =>
    rw [Bool.and_eq_true] at hzero
    rw [isNan_eq_false hzero.1, isNan_eq_false hzero.2, Bool.true_and, bne_eq_false_iff_eq]
    simp only [hbits, Bool.or_true, Bool.not_false, Bool.and_self, true_imp_iff, iff_false]
    rcases (isZero_iff x).mp hzero.1 with hx | hx
    . rcases (isZero_iff y).mp hzero.2 with hy | hy
      . exact absurd (hx.trans hy.symm) hbits
      rw [hx, hy]
      exact hash_zeros_ne seed
    . rcases (isZero_iff y).mp hzero.2 with hy | hy
      . rw [hx, hy]
        exact (hash_zeros_ne seed).symm
      . exact absurd (hx.trans hy.symm) hbits

end Float

namespace KeyType

def oppositeZeros : (t : KeyType) → t.Val → t.Val → Bool
  | .float _, (x : Float _), (y : Float _) => x.isZero && y.isZero && x.bits != y.bits
  | _, _, _ => false

theorem beq_comm : (t : KeyType) → (x y : t.Val) → (x == y) = (y == x)
  | .string, x, y => @BEq.comm (List UInt8) _ _ x y
  | .integer n, x, y => @BEq.comm (BitVec (8 * n)) _ _ x y
  | .bool, x, y => @BEq.comm Bool _ _ x y
  | .float _, x, y => Float.beq_comm x y

theorem hash_respects_of_lawful [BEq K] [LawfulBEq K] [GoHash K] (x y : K) (seed : UInt64)
    : ((x == y) = true → GoHash.goHash x seed = GoHash.goHash y seed) ↔ false = false := by
  simp only [iff_true]
  intro heq
  rw [eq_of_beq heq]

theorem hash_respects_iff : (t : KeyType) → (x y : t.Val) → (seed : UInt64) →
        (((x == y) = true → GoHash.goHash x seed = GoHash.goHash y seed) ↔ t.oppositeZeros x y = false)
  | .string, x, y, seed => hash_respects_of_lawful (K := List UInt8) x y seed
  | .integer n, x, y, seed => hash_respects_of_lawful (K := BitVec (8 * n)) x y seed
  | .bool, x, y, seed => hash_respects_of_lawful (K := Bool) x y seed
  | .float _, x, y, seed => Float.hash_respects_iff x y seed

end KeyType

namespace Map

def Unsplit (t : KeyType) (m : Map t.Val V) (op : Op t.Val V) : Prop :=
  ∀ key, op.key? = some key → ∀ e ∈ m.entries, t.oppositeZeros e.1 key = false

theorem distinct_of_reachable [Inhabited V] {hash0 : UInt32}
    {zero : Option V} (h : (system (Unsplit t) hash0 zero).Reachable m) : Distinct m.entries := by
  suffices hinv : m.Inv ∧ Distinct m.entries from hinv.2
  apply h.invariant fun m => m.Inv ∧ Distinct m.entries
  . rintro _ rfl
    exact ⟨new_inv hash0 zero, .nil⟩
  rintro m _ ⟨hinv, hd⟩ ⟨op, hguard, rfl⟩
  obtain ⟨key, f, hkey, heq⟩ | ⟨-, hemp, hsub⟩ := exec_cases hinv op
  . obtain ⟨hput, hup, -⟩ := write_spec hinv key f
    have hperm := (prepare_rehashed hinv).perm hd
    rw [heq]
    refine ⟨hup.inv, hput.distinct (hd.perm hperm.symm) t.beq_comm ?_⟩
    intro e he
    exact (t.hash_respects_iff e.1 key _).mpr (hguard key hkey e (hperm.mem_iff.mp he))
  . exact ⟨hemp.inv, hd.sublist hsub⟩

theorem hash_respects [Inhabited V] (t : KeyType) (hash0 : UInt32) (zero : Option V) : (∀ (x y : t.Val) (seed : UInt64),
        ((x == y) = true → GoHash.goHash x seed = GoHash.goHash y seed) ↔ t.oppositeZeros x y = false) ∧
        ∀ m : Map t.Val V, (system (Unsplit t) hash0 zero).Reachable m → Distinct m.entries :=
  ⟨t.hash_respects_iff, fun _ h => distinct_of_reachable h⟩

theorem hash_respects_two : let m : Map (KeyType.float .f64).Val Nat :=
        ((new 1 none).set (⟨0#_⟩ : Float .f64) 1).set (⟨BitVec.ofNat _ 0x3ff0000000000000⟩ : Float .f64) 2
      m.entries.length = 2 ∧ Distinct m.entries := by
  intro m
  refine ⟨by decide +kernel, (hash_respects (.float .f64) 1 none).2 m ?_⟩
  apply System.Reachable.step (s := (new 1 none).set (⟨0#_⟩ : Float .f64) 1)
  . refine .step (.init rfl) ⟨.set (⟨0#_⟩ : Float .f64) 1, ?_, rfl⟩
    intro _ _ _ _
    contradiction
  refine ⟨.set (⟨BitVec.ofNat _ 0x3ff0000000000000⟩ : Float .f64) 2, ?_, rfl⟩
  intro _ hkey _ _
  obtain rfl := Option.some.inj hkey
  change (_ && @Float.isZero .f64 _ && _) = false
  rw [show Float.isZero (⟨BitVec.ofNat _ 0x3ff0000000000000⟩ : Float .f64) = false by decide +kernel]
  rw [Bool.and_false, Bool.false_and]

theorem zeros_split : let x : (KeyType.float .f64).Val := (⟨0#_⟩ : Float .f64)
      let y : (KeyType.float .f64).Val := (⟨BitVec.ofNat _ 0x8000000000000000⟩ : Float .f64)
      (x == y) = true ∧ GoHash.goHash x 1 ≠ GoHash.goHash y 1 ∧
        (((new 1 none).set x 1).set y 2).entries = [(x, 1), (y, 2)] := by
  intro x y
  exact ⟨by decide +kernel, by decide +kernel, by decide +kernel⟩

end Map

end GoMap
